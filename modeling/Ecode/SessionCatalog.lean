-- The session catalog: one entry for each session, two secondary indexes that
-- are kept by hand, and the queries over them (core/src/rollout/catalog.rs,
-- core/src/session_catalog.rs).
import Ecode.KeyedLists
import Ecode.Paths
import Ecode.SessionIds

namespace Ecode.rollout_catalog

open keyed

inductive SubAgentSource where
  | Review
  | Compact
  | ThreadSpawn (parent_thread_id : Uuid) (depth : Int)
  | MemoryConsolidation
  | Other (name : Text)
  deriving DecidableEq

inductive SessionSource where
  | Cli
  | VSCode
  | Exec
  | Mcp
  | SubAgent (source : SubAgentSource)
  | Unknown
  deriving DecidableEq

structure SessionIndexEntry where
  session_id : Uuid
  rollout_path : Path
  snapshot_path : Option Path
  created_at : Text
  last_event_at : Text
  cwd_real : Path
  cwd_display : Text
  git_project_root : Option Path
  git_branch : Option Text
  model_provider : Option Text
  session_source : SessionSource
  message_count : Nat
  user_message_count : Nat
  last_user_snippet : Option Text
  nickname : Option Text
  sync_origin_device : Option Text
  sync_version : Nat
  archived : Bool
  deleted : Bool
  deriving DecidableEq

/-- Newest first: each part of the key is reversed. -/
def SessionIndexEntry.ordering_key (e : SessionIndexEntry) : Textᵒᵈ ×ₗ Textᵒᵈ ×ₗ Uuidᵒᵈ :=
  toLex (OrderDual.toDual e.last_event_at,
    toLex (OrderDual.toDual e.created_at, OrderDual.toDual e.session_id))

structure SessionCatalog where
  entries : List SessionIndexEntry
  by_cwd : Path → List Uuid
  by_git_root : Path → List Uuid

namespace SessionCatalog

def empty : SessionCatalog := { entries := [], by_cwd := fun _ => [], by_git_root := fun _ => [] }

def get (c : SessionCatalog) (session_id : Uuid) : Option SessionIndexEntry :=
  keyed.get SessionIndexEntry.session_id c.entries session_id

/-- `.entry(place).or_default().push(session_id)`. -/
def push_id (ids : Path → List Uuid) (place : Path) (session_id : Uuid) : Path → List Uuid :=
  fun p => if place = p then ids p ++ [session_id] else ids p

/-- `ids.retain(|id| id != session_id)`, at one place. -/
def retain_other (ids : Path → List Uuid) (place : Path) (session_id : Uuid) : Path → List Uuid :=
  fun p => if place = p then (ids p).filter (· ≠ session_id) else ids p

def index_entry (c : SessionCatalog) (entry : SessionIndexEntry) : SessionCatalog where
  by_cwd := push_id c.by_cwd entry.cwd_real entry.session_id
  by_git_root :=
    match entry.git_project_root with
    | some git_root => push_id c.by_git_root git_root entry.session_id
    | none => c.by_git_root
  entries := insert SessionIndexEntry.session_id c.entries entry

/-- The lines of the catalog file that parse, one after the other. -/
def load (lines : List (Option SessionIndexEntry)) : SessionCatalog :=
  lines.foldl (fun c line => match line with
    | some entry => index_entry c entry
    | none => c) empty

/-- The lines that `save` writes. -/
def save (c : SessionCatalog) : List SessionIndexEntry :=
  sort_by_key SessionIndexEntry.ordering_key c.entries

def all_ordered (c : SessionCatalog) : List SessionIndexEntry :=
  sort_by_key SessionIndexEntry.ordering_key c.entries

/-- The sessions of one list of an index. -/
def listed (c : SessionCatalog) (session_ids : List Uuid) : List SessionIndexEntry :=
  sort_by_key SessionIndexEntry.ordering_key (session_ids.filterMap c.get)

end SessionCatalog

open SessionCatalog

def by_cwd (c : SessionCatalog) (cwd : Path) : List SessionIndexEntry := c.listed (c.by_cwd cwd)

def by_git_root (c : SessionCatalog) (git_root : Path) : List SessionIndexEntry :=
  c.listed (c.by_git_root git_root)

def remove_from_indexes (c : SessionCatalog) (session_id : Uuid) (entry : SessionIndexEntry) :
    SessionCatalog :=
  { c with
    by_cwd := retain_other c.by_cwd entry.cwd_real session_id
    by_git_root :=
      match entry.git_project_root with
      | some git_root => retain_other c.by_git_root git_root session_id
      | none => c.by_git_root }

/-- The catalog after the call; the file is then saved. -/
def upsert (c : SessionCatalog) (entry : SessionIndexEntry) : SessionCatalog :=
  match c.get entry.session_id with
  | some old_entry => index_entry (remove_from_indexes c entry.session_id old_entry) entry
  | none => index_entry c entry

/-- The catalog after the call, when the session is there. -/
def set_nickname (c : SessionCatalog) (session_id : Uuid) (nickname : Option Text) :
    Option SessionCatalog :=
  (c.get session_id).map fun _ =>
    { c with entries := c.entries.map fun entry =>
        if entry.session_id = session_id then { entry with nickname := nickname } else entry }

/-- `entries.remove`, then the indexes. -/
def remove (c : SessionCatalog) (session_id : Uuid) : SessionCatalog :=
  match c.get session_id with
  | some entry =>
    remove_from_indexes
      { c with entries := erase SessionIndexEntry.session_id c.entries session_id } session_id entry
  | none => c

/-! ## Reconciling with the rollout files -/

def should_replace (existing candidate : SessionIndexEntry) : Bool :=
  if existing.last_event_at ≠ candidate.last_event_at then
    existing.last_event_at < candidate.last_event_at
  else if existing.created_at ≠ candidate.created_at then
    existing.created_at < candidate.created_at
  else
    existing.rollout_path ≠ candidate.rollout_path
      ∨ existing.snapshot_path ≠ candidate.snapshot_path
      ∨ existing.cwd_real ≠ candidate.cwd_real
      ∨ existing.session_source ≠ candidate.session_source
      ∨ existing.git_branch ≠ candidate.git_branch

/-- What a scan of the rollout files found: a map, so each session is there once. -/
structure Discovered where
  entries : List SessionIndexEntry
  once : Once SessionIndexEntry.session_id entries

def Discovered.ids (d : Discovered) : List Uuid := d.entries.map SessionIndexEntry.session_id

structure ReconcileResult where
  added : Nat := 0
  updated : Nat := 0
  removed : Nat := 0
  deriving DecidableEq

/-- The variables of `reconcile`. -/
structure Reconciling where
  catalog : SessionCatalog
  result : ReconcileResult := {}
  changed : Bool := false

/-- One turn of the loop that removes what no longer exists on disk. -/
def remove_missing (discovered_ids : List Uuid) (r : Reconciling) (session_id : Uuid) :
    Reconciling :=
  if session_id ∈ discovered_ids then r
  else if (r.catalog.get session_id).isSome then
    { catalog := remove r.catalog session_id
      result := { r.result with removed := r.result.removed + 1 }
      changed := true }
  else r

/-- One turn of the loop over the discovered entries. -/
def upsert_discovered (r : Reconciling) (entry : SessionIndexEntry) : Reconciling :=
  match r.catalog.get entry.session_id with
  | some existing =>
    if should_replace existing entry then
      let entry :=
        if entry.nickname.isNone then { entry with nickname := existing.nickname } else entry
      { catalog := index_entry (remove_from_indexes r.catalog entry.session_id existing) entry
        result := { r.result with updated := r.result.updated + 1 }
        changed := true }
    else r
  | none =>
    { catalog := index_entry r.catalog entry
      result := { r.result with added := r.result.added + 1 }
      changed := true }

/-- `SessionCatalog::reconcile`, given what the scan found: nothing when there is no sessions
directory. The file is saved when something changed. -/
def reconcile (c : SessionCatalog) (discovered : Option Discovered) : Reconciling :=
  match discovered with
  | none => { catalog := c }
  | some d =>
    let existing_ids := c.entries.map SessionIndexEntry.session_id
    d.entries.foldl upsert_discovered (existing_ids.foldl (remove_missing d.ids) { catalog := c })

/-- What the turns of both loops keep, `reconcile` keeps. -/
theorem reconcile_keeps {I : SessionCatalog → Prop} {c : SessionCatalog} {d : Discovered}
    (hmissing : ∀ r id, I r.catalog → I (remove_missing d.ids r id).catalog)
    (hdiscovered : ∀ r, ∀ e ∈ d.entries, I r.catalog → I (upsert_discovered r e).catalog)
    (hc : I c) : I (reconcile c (some d)).catalog := by
  have hremoved := List.foldlRecOn (motive := fun r => I r.catalog)
    (c.entries.map SessionIndexEntry.session_id) (remove_missing d.ids) (b := { catalog := c }) hc
    fun r hr id _ => hmissing r id hr
  exact List.foldlRecOn (motive := fun r => I r.catalog) d.entries upsert_discovered hremoved
    fun r hr e he => hdiscovered r e he hr

/-! ## Queries -/

structure SessionQuery where
  cwd : Option Path := none
  git_root : Option Path := none
  sources : List SessionSource := []
  min_user_messages : Nat := 0
  include_archived : Bool := false
  include_deleted : Bool := false
  limit : Option Nat := none

/-- The filters of a query, in the order of the loop. -/
def SessionQuery.passes (query : SessionQuery) (entry : SessionIndexEntry) : Bool :=
  if !query.include_archived && entry.archived then false
  else if !query.include_deleted && entry.deleted then false
  else if query.cwd.any (entry.cwd_real ≠ ·) then false
  else if query.git_root.any (entry.git_project_root ≠ some ·) then false
  else if query.sources ≠ [] ∧ entry.session_source ∉ query.sources then false
  else if entry.user_message_count < query.min_user_messages then false
  else true

/-- The loop of `query`: a row is pushed before the limit is looked at. -/
def collect_rows (query : SessionQuery) :
    List SessionIndexEntry → List SessionIndexEntry → List SessionIndexEntry
  | rows, [] => rows
  | rows, entry :: candidates =>
    if query.passes entry then
      let rows := rows ++ [entry]
      if query.limit.any (rows.length ≥ ·) then rows else collect_rows query rows candidates
    else collect_rows query rows candidates

def candidates (c : SessionCatalog) (query : SessionQuery) : List SessionIndexEntry :=
  match query.cwd, query.git_root with
  | some cwd, _ => by_cwd c cwd
  | none, some git_root => by_git_root c git_root
  | none, none => all_ordered c

/-- `SessionCatalog::query`, on the catalog that was loaded. -/
def query (c : SessionCatalog) (q : SessionQuery) : List SessionIndexEntry :=
  collect_rows q [] (candidates c q)

def get_latest (c : SessionCatalog) (q : SessionQuery) : Option SessionIndexEntry :=
  (query c { q with limit := some 1 }).getLast?

end Ecode.rollout_catalog
