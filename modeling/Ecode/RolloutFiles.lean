-- The rollout files under the code home, what a catalog entry takes from one,
-- and the scan that `reconcile` makes (core/src/rollout/catalog.rs).
import Ecode.SessionCatalog

namespace Ecode.Path

/-- `Path::strip_prefix`. -/
def strip_prefix (p base : Path) : Option Path :=
  if base.isPrefixOf p then some (p.drop base.length) else none

/-- `Path::with_extension`: nothing is done to a path without a file name. -/
def with_extension (p : Path) (extension : Text) : Path :=
  match file_stem p with
  | some stem => p.dropLast ++ [.Normal (stem ++ '.' :: extension)]
  | none => p

end Ecode.Path

namespace Ecode.rollout_catalog

open keyed

/-! ## The lines of a rollout -/

inductive ContentItem where
  | InputText (text : Text)
  | OutputText (text : Text)
  | InputImage (image_url : Text)

inductive ResponseItem where
  | Message (role : Text) (content : List ContentItem)
  | Other

/-- The parts of a rollout item that the catalog looks at. -/
inductive RolloutItem where
  | SessionMeta (id : Uuid) (cwd : Path) (source : SessionSource) (git : Option (Option Text))
  | ResponseItem (item : ResponseItem)
  | Event
  | EventMsg
  | Compacted
  | TurnContext

structure RolloutLine where
  timestamp : Text
  item : RolloutItem

/-- A line of a file, as serde reads it: as a rollout line, as a catalog entry, or as neither. -/
inductive Line where
  | rollout (l : RolloutLine)
  | entry (e : SessionIndexEntry)
  | other

def Line.rollout? : Line → Option RolloutLine
  | .rollout l => some l
  | _ => none

def Line.entry? : Line → Option SessionIndexEntry
  | .entry e => some e
  | _ => none

def truncate_snippet (text : Text) : Text := text.take 100

def snippet_from_content (content : List ContentItem) : Option Text :=
  content.findSome? fun
    | .InputText text | .OutputText text => some (truncate_snippet text)
    | .InputImage _ => none

def is_system_status_snippet (text : Text) : Bool :=
  Text.starts_with text "== System Status ==".toList

/-- The variables of `parse_rollout_file`. -/
structure RolloutSummary where
  session_id : Option Uuid := none
  created_at : Option Text := none
  last_event_at : Option Text := none
  cwd_real : Option Path := none
  git_branch : Option Text := none
  git_project_root : Option Path := none
  session_source : Option SessionSource := none
  message_count : Nat := 0
  user_message_count : Nat := 0
  last_user_snippet : Option Text := none

/-- What one line adds. -/
def RolloutSummary.line (s : RolloutSummary) (l : RolloutLine) : RolloutSummary :=
  let s := { s with last_event_at := some l.timestamp }
  match l.item with
  | .SessionMeta id cwd source git =>
    let s := { s with
      session_id := some id
      created_at := some l.timestamp
      cwd_real := some cwd
      session_source := some source }
    match git with
    | some branch => { s with git_branch := branch, git_project_root := some cwd }
    | none => s
  | .ResponseItem item =>
    let s := { s with message_count := s.message_count + 1 }
    match item with
    | .Message role content =>
      if Text.eq_ignore_ascii_case role "user".toList then
        let snippet := snippet_from_content content
        if snippet.any is_system_status_snippet then s
        else { s with
          user_message_count := s.user_message_count + 1
          last_user_snippet := snippet.or s.last_user_snippet }
      else s
    | .Other => s
  | .Event | .EventMsg | .Compacted | .TurnContext =>
    { s with message_count := s.message_count + 1 }

/-- The loop over the lines. -/
def summary (lines : List Line) : RolloutSummary :=
  (lines.filterMap Line.rollout?).foldl RolloutSummary.line {}

/-! ## The disk -/

/-- The files with their lines, in the order in which a directory is read, and the directories
that are there without a file. -/
structure Disk where
  files : List (Path × List Line)
  dirs : List Path := []

namespace Disk

/-- `Path::exists`: there is something at the path or below it. -/
def «exists» (d : Disk) (p : Path) : Bool :=
  d.files.any (fun f => p.isPrefixOf f.1) || d.dirs.any (p.isPrefixOf ·)

def read (d : Disk) (p : Path) : Option (List Line) := (keyed.get Prod.fst d.files p).map Prod.snd

/-- `fs::write`, with `create_dir_all` of the parent before it. -/
def write (d : Disk) (p : Path) (lines : List Line) : Disk :=
  { d with files := insert Prod.fst d.files (p, lines) }

def create_dir_all (d : Disk) (p : Path) : Disk := { d with dirs := p :: d.dirs }

/-- A path after what is at `old`, and all below it, has gone to `new`. -/
def moved (old new p : Path) : Path := if old.isPrefixOf p then new ++ p.drop old.length else p

/-- `move_file`: a file takes the place of a file, a directory only of nothing. -/
def move_file (d : Disk) (old new : Path) : Option Disk :=
  if (d.read old).isSome then
    some { d with files := (erase Prod.fst d.files new).map fun f => (moved old new f.1, f.2) }
  else if d.exists new then none
  else some {
    files := d.files.map fun f => (moved old new f.1, f.2)
    dirs := d.dirs.map (moved old new) }

end Disk

/-! ## The scan -/

variable (code_home : Path)

def SESSIONS_SUBDIR : Path := Path.of_text "sessions".toList

def ARCHIVED_SESSIONS_SUBDIR : Path := Path.of_text "archived_sessions".toList

def INDEX_SUBDIR : Path := Path.of_text "sessions/index".toList

def CATALOG_FILENAME : Path := Path.of_text "catalog.jsonl".toList

def catalog_path : Path := Path.join (Path.join code_home INDEX_SUBDIR) CATALOG_FILENAME

/-- `parse_rollout_file`. -/
def parse_rollout_file (disk : Disk) (path sessions_root : Path) (archived : Bool) :
    Option SessionIndexEntry := do
  let lines ← disk.read path
  let s := summary lines
  let session_id ← s.session_id
  let created_at ← s.created_at
  let last_event_at := s.last_event_at.getD created_at
  let cwd_real ← s.cwd_real
  let session_source ← s.session_source
  let code_home ← Path.parent sessions_root
  let rollout_path ← Path.strip_prefix path code_home
  let snapshot_file := Path.with_extension path "snapshot.json".toList
  let snapshot_path :=
    if disk.exists snapshot_file then Path.strip_prefix snapshot_file code_home else none
  return {
    session_id
    rollout_path
    snapshot_path
    created_at
    last_event_at
    cwd_real
    cwd_display := Path.display cwd_real
    git_project_root := s.git_project_root
    git_branch := s.git_branch
    model_provider := none
    session_source
    message_count := s.message_count
    user_message_count := s.user_message_count
    last_user_snippet := s.last_user_snippet
    nickname := none
    sync_origin_device := none
    sync_version := 0
    archived
    deleted := false }

/-- One entry more in a map of discovered entries: the map keeps the better of two. -/
def Discovered.add (d : Discovered) (entry : SessionIndexEntry) : Discovered :=
  let inserted : Discovered :=
    ⟨insert SessionIndexEntry.session_id d.entries entry, d.once.insert entry⟩
  match keyed.get SessionIndexEntry.session_id d.entries entry.session_id with
  | some existing => if should_replace existing entry then inserted else d
  | none => inserted

/-- The name of a file that the scan reads. -/
def is_rollout_name (path : Path) : Bool :=
  (Path.file_name path).any fun name =>
    Text.ends_with name ".jsonl".toList && Text.starts_with name "rollout-".toList

def scan_rollout_files (disk : Disk) (sessions_root : Path) (archived : Bool) : Discovered :=
  (disk.files.filterMap fun f =>
    if sessions_root.isPrefixOf f.1 && is_rollout_name f.1 then
      parse_rollout_file disk f.1 sessions_root archived
    else none).foldl Discovered.add ⟨[], List.nodup_nil⟩

def merge_discovered_entries (primary secondary : Discovered) : Discovered :=
  secondary.entries.foldl Discovered.add primary

/-- What `reconcile` finds on disk. -/
def discovered_entries (disk : Disk) : Option Discovered :=
  let sessions_root := Path.join code_home SESSIONS_SUBDIR
  let archived_root := Path.join code_home ARCHIVED_SESSIONS_SUBDIR
  if disk.exists sessions_root then
    let discovered := scan_rollout_files disk sessions_root false
    if disk.exists archived_root then
      some (merge_discovered_entries discovered (scan_rollout_files disk archived_root true))
    else some discovered
  else none

/-! ## The catalog file -/

/-- `SessionCatalog::load`. -/
def load_catalog (disk : Disk) : SessionCatalog :=
  SessionCatalog.load (((disk.read (catalog_path code_home)).getD []).map Line.entry?)

/-- `SessionCatalog::save`. -/
def save_catalog (c : SessionCatalog) (disk : Disk) : Disk :=
  disk.write (catalog_path code_home) (c.save.map Line.entry)

/-- `SessionCatalog::reconcile`, with the scan and the save. -/
def reconcile_disk (c : SessionCatalog) (disk : Disk) : SessionCatalog × Disk :=
  let r := reconcile c (discovered_entries code_home disk)
  (r.catalog, if r.changed then save_catalog code_home r.catalog disk else disk)

/-- `update_catalog_entry`, the recorder's update after a write. -/
def update_catalog_entry (disk : Disk) (rollout_path : Path) (session_id : Uuid)
    (last_timestamp : Text) : Disk :=
  let catalog := load_catalog code_home disk
  let sessions_root := Path.join code_home SESSIONS_SUBDIR
  let archived_root := Path.join code_home ARCHIVED_SESSIONS_SUBDIR
  let archived := Path.starts_with rollout_path archived_root
  let parse_root := if archived then archived_root else sessions_root
  let updated := parse_rollout_file disk rollout_path parse_root archived
  match catalog.get session_id with
  | some entry =>
    -- the entry leaves the map alone here, not the indexes
    let catalog := { catalog with
      entries := erase SessionIndexEntry.session_id catalog.entries session_id }
    let entry := { entry with last_event_at := last_timestamp }
    let entry :=
      match updated with
      | some updated => { entry with
          message_count := updated.message_count
          user_message_count := updated.user_message_count
          last_user_snippet := updated.last_user_snippet
          archived := updated.archived
          rollout_path := updated.rollout_path
          snapshot_path := updated.snapshot_path }
      | none => entry
    save_catalog code_home (upsert catalog entry) disk
  | none =>
    match updated with
    | some entry => save_catalog code_home (upsert catalog entry) disk
    | none => disk

end Ecode.rollout_catalog
