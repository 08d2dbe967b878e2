-- The pages of recorded conversations (core/src/rollout/list.rs). The files are
-- scanned by directory and, within a day, by the time they were modified; a page
-- is cut in the order of modification; the cursor that the next page starts from
-- is the creation time and the UUID in a file name.
import Ecode.Calendar
import Ecode.Paging
import Ecode.Text

open Ecode.calendar Ecode.paging

namespace Ecode.rollout

/-! ## File names -/

/-- A creation time in seconds and a UUID as a number. -/
structure Cursor where
  ts : Int
  id : Nat
  deriving DecidableEq, Repr

/-- `Uuid::parse_str`, and `PrimitiveDateTime::parse` in the format of the file names. -/
structure Parsers where
  uuid : Text → Option Nat
  datetime : Text → Option Int

/-- The texts before and after each dash. -/
def match_dashes : Text → List (Text × Text)
  | [] => []
  | c :: t =>
    let later := (match_dashes t).map (fun p => (c :: p.1, p.2))
    if c = '-' then ([], t) :: later else later

/-- The UUID is what stands after the last dash after which there is one. -/
def parse_timestamp_uuid_from_filename (P : Parsers) (name : Text) : Option Cursor := do
  let rest ← Text.strip_prefix name "rollout-".toList
  let core ← Text.strip_suffix rest ".jsonl".toList
  let (ts_str, uuid) ← (match_dashes core).reverse.findSome? (fun p =>
    (P.uuid p.2).map (fun u => (p.1, u)))
  let ts ← P.datetime ts_str
  return { ts := ts, id := uuid }

/-! ## Files -/

inductive SubAgentSource where
  | Review
  | Compact
  | ThreadSpawn (parent_thread_id : Nat) (depth : Int)
  | MemoryConsolidation
  | Other (name : Text)
  deriving DecidableEq, Repr

inductive SessionSource where
  | Cli
  | VSCode
  | Exec
  | Mcp
  | SubAgent (source : SubAgentSource)
  | Unknown
  deriving DecidableEq, Repr

inductive EventMsg where
  | UserMessage
  | AgentMessage
  | Other
  deriving DecidableEq, Repr

/-- The record of a line, with what `event_msg_from_protocol` makes of an event. -/
inductive RolloutItem where
  | SessionMeta (source : SessionSource)
  | Event (msg : Option EventMsg)
  | EventMsg (msg : Option EventMsg)
  | ResponseItem
  | Compacted
  | TurnContext
  deriving DecidableEq, Repr

/-- A rollout file, whose name has a creation time and a UUID. -/
structure RolloutFile (P : Parsers) where
  name : Text
  cursor : Cursor
  named : parse_timestamp_uuid_from_filename P name = some cursor
  /-- The time of its last modification, in nanoseconds. -/
  modified : Int
  /-- Its lines, where one that is blank or does not parse has no record. There are none when the
  file cannot be read. -/
  lines : Option (List (Option RolloutItem))
  deriving DecidableEq

/-- What `read_head_and_tail` finds out of what decides whether a file is listed. -/
structure HeadTailSummary where
  source : Option SessionSource
  saw_session_meta : Bool
  saw_user_event : Bool
  deriving DecidableEq, Repr

def HEAD_RECORD_LIMIT : Nat := 10

def HeadTailSummary.default : HeadTailSummary where
  source := none
  saw_session_meta := false
  saw_user_event := false

/-- A message of the user or of the agent. -/
def is_message : Option EventMsg → Bool
  | some .UserMessage | some .AgentMessage => true
  | _ => false

def HeadTailSummary.record (summary : HeadTailSummary) : RolloutItem → HeadTailSummary
  | .SessionMeta source => { summary with source := some source, saw_session_meta := true }
  | .Event msg | .EventMsg msg =>
    if is_message msg then { summary with saw_user_event := true } else summary
  | .ResponseItem | .Compacted | .TurnContext => summary

/-- `read_head_and_tail`, with the default that an error is replaced by. -/
def read_head_and_tail (lines : Option (List (Option RolloutItem))) : HeadTailSummary :=
  match lines with
  | none => .default
  | some lines =>
    ((lines.filterMap id).take HEAD_RECORD_LIMIT).foldl HeadTailSummary.record .default

section listing

variable {P : Parsers}

/-- The file is a conversation to list. -/
def listable (allowed_sources : List SessionSource) (file : RolloutFile P) : Bool :=
  let summary := read_head_and_tail file.lines
  (allowed_sources.isEmpty ||
    (match summary.source with
      | none => false
      | some source => allowed_sources.contains source)) &&
    summary.saw_session_meta && summary.saw_user_event

/-! ## Directories -/

/-- A directory whose name is a number, with its entries as the system lists them. -/
structure Dir (α : Type) where
  number : Nat
  entries : List α

/-- The directories of the years, of their months and of their days. -/
abbrev Sessions (P : Parsers) := List (Dir (Dir (Dir (RolloutFile P))))

/-- `collect_dirs_desc`: a stable sort, with the greatest number first. -/
def collect_dirs_desc {α : Type} (dirs : List (Dir α)) : List (Dir α) :=
  dirs.insertionSort (fun a b => b.number ≤ a.number)

/-- What files are sorted by: modification time, creation time and UUID. -/
def RolloutFile.rank (f : RolloutFile P) : Int ×ₗ Int ×ₗ Nat :=
  toLex (f.modified, toLex (f.cursor.ts, f.cursor.id))

/-- `sort_by_key` with the greatest rank first. -/
def newest_first (files : List (RolloutFile P)) : List (RolloutFile P) :=
  files.insertionSort (fun a b => b.rank ≤ a.rank)

/-- The files in the order in which they are scanned. -/
def scan_order (sessions : Sessions P) : List (RolloutFile P) :=
  (collect_dirs_desc sessions).flatMap (fun year =>
    (collect_dirs_desc year.entries).flatMap (fun month =>
      (collect_dirs_desc month.entries).flatMap (fun day => newest_first day.entries)))

/-! ## One page -/

def MAX_SCAN_FILES : Nat := 10000

structure ConversationsPage (P : Parsers) where
  items : List (RolloutFile P)
  next_cursor : Option Cursor
  num_scanned_files : Nat
  reached_scan_cap : Bool

/-- The file comes after the anchor in creation time and UUID. -/
def after_anchor (anchor : Cursor) (f : RolloutFile P) : Bool :=
  f.cursor.ts < anchor.ts || (f.cursor.ts == anchor.ts && f.cursor.id < anchor.id)

/-- The loop over the files: how many were scanned, and the candidates. Once a file after the
anchor was met, every file is a candidate. -/
def scan (allowed_sources : List SessionSource) (anchor : Cursor) :
    Nat → Bool → List (RolloutFile P) → Nat × List (RolloutFile P)
  | scanned_files, _, [] => (scanned_files, [])
  | scanned_files, anchor_passed, f :: files =>
    if MAX_SCAN_FILES ≤ scanned_files + 1 then (scanned_files + 1, [])
    else if !anchor_passed && !after_anchor anchor f then
      scan allowed_sources anchor (scanned_files + 1) false files
    else
      let (scanned, candidates) := scan allowed_sources anchor (scanned_files + 1) true files
      (scanned, if listable allowed_sources f then f :: candidates else candidates)

def build_next_cursor (items : List (RolloutFile P)) : Option Cursor :=
  items.getLast?.bind (fun last => parse_timestamp_uuid_from_filename P last.name)

def traverse_directories_for_paths (sessions : Sessions P) (page_size : Nat)
    (anchor : Option Cursor) (allowed_sources : List SessionSource) : ConversationsPage P :=
  let (scanned_files, candidates) :=
    scan allowed_sources (anchor.getD ⟨0, 0⟩) 0 anchor.isNone (scan_order sessions)
  let items := (newest_first candidates).take page_size
  { items := items, next_cursor := build_next_cursor items, num_scanned_files := scanned_files
    reached_scan_cap := MAX_SCAN_FILES ≤ scanned_files }

/-- `get_conversations`. There may be no directory of sessions. -/
def get_conversations (root : Option (Sessions P)) (page_size : Nat) (cursor : Option Cursor)
    (allowed_sources : List SessionSource) : ConversationsPage P :=
  match root with
  | none =>
    { items := [], next_cursor := none, num_scanned_files := 0, reached_scan_cap := false }
  | some sessions => traverse_directories_for_paths sessions page_size cursor allowed_sources

/-! ## A listing -/

/-- What the calls answer from a cursor on, each with the cursor of the one before, until one
answers no item. -/
inductive Lists (root : Option (Sessions P)) (page_size : Nat)
    (allowed_sources : List SessionSource) : Option Cursor → List (RolloutFile P) → Prop
  | done {cursor : Option Cursor} :
      (get_conversations root page_size cursor allowed_sources).items = [] →
      Lists root page_size allowed_sources cursor []
  | more {cursor : Option Cursor} {rest : List (RolloutFile P)} :
      (get_conversations root page_size cursor allowed_sources).items ≠ [] →
      Lists root page_size allowed_sources
        (get_conversations root page_size cursor allowed_sources).next_cursor rest →
      Lists root page_size allowed_sources cursor
        ((get_conversations root page_size cursor allowed_sources).items ++ rest)

/-- All files. -/
def files_of (root : Option (Sessions P)) : List (RolloutFile P) :=
  (root.getD []).flatMap (fun year =>
    year.entries.flatMap (fun month => month.entries.flatMap (fun day => day.entries)))

/-- The calls end, and answer every conversation once. -/
def ListsAllOnce (root : Option (Sessions P)) (page_size : Nat)
    (allowed_sources : List SessionSource) : Prop :=
  ∃ out, Lists root page_size allowed_sources none out ∧
    out.Perm ((files_of root).filter (listable allowed_sources))

/-- The conversations in the order of modification. -/
def by_modification (root : Option (Sessions P)) (allowed_sources : List SessionSource) :
    List (RolloutFile P) :=
  newest_first ((files_of root).filter (listable allowed_sources))

/-- The conversations that are scanned from the first file on that is after the anchor. -/
def scanned_after (root : Option (Sessions P)) (allowed_sources : List SessionSource)
    (anchor : Cursor) : List (RolloutFile P) :=
  ((scan_order (root.getD [])).dropWhile (fun f => !after_anchor anchor f)).filter
    (listable allowed_sources)

/-- At every page end in the order of modification, the conversations that are scanned from the
first file after the last of the page on are those that are left. -/
def PageEndsMeet (root : Option (Sessions P)) (page_size : Nat)
    (allowed_sources : List SessionSource) : Prop :=
  ∀ n, PageEnd page_size (by_modification root allowed_sources) n →
    ∀ f, (by_modification root allowed_sources)[n - 1]? = some f →
      ∀ g ∈ by_modification root allowed_sources,
        g ∈ scanned_after root allowed_sources f.cursor ↔
          g ∈ (by_modification root allowed_sources).drop n

/-! ## The order of cursors -/

/-- A cursor as a pair that is ordered by its time first. -/
def Cursor.pair (c : Cursor) : Int ×ₗ Nat := toLex (c.ts, c.id)

theorem Cursor.pair_injective : Function.Injective Cursor.pair := by
  intro c c' h
  have h' : (c.ts, c.id) = (c'.ts, c'.id) := h
  cases c
  cases c'
  simpa using h'

instance : LinearOrder Cursor := LinearOrder.lift' Cursor.pair Cursor.pair_injective

theorem after_anchor_iff {anchor : Cursor} {f : RolloutFile P} :
    after_anchor anchor f = true ↔ f.cursor < anchor := by
  have hlt : f.cursor < anchor ↔ f.cursor.pair < anchor.pair := Iff.rfl
  rw [hlt, Cursor.pair, Cursor.pair, Prod.Lex.toLex_lt_toLex]
  simp [after_anchor]

/-! ## What is scanned -/

/-- A scan that does not come to the cap. -/
theorem scan_eq {allowed : List SessionSource} {anchor : Cursor} {n : Nat} {passed : Bool}
    {files : List (RolloutFile P)} (hcap : n + files.length < MAX_SCAN_FILES) :
    scan allowed anchor n passed files = (n + files.length,
      (if passed then files else files.dropWhile (fun f => !after_anchor anchor f)).filter
        (listable allowed)) := by
  induction files generalizing n passed with
  | nil => simp [scan]
  | cons f files ih =>
    rw [List.length_cons] at hcap
    have hroom : n + 1 + files.length < MAX_SCAN_FILES := by omega
    have hcount : n + 1 + files.length = n + (files.length + 1) := by omega
    unfold scan
    rw [if_neg (by omega), ih hroom, ih hroom, List.length_cons, hcount]
    cases passed with
    | true => simp [List.filter_cons]
    | false =>
      cases hafter : after_anchor anchor f with
      | true => simp [hafter, List.filter_cons]
      | false => simp [hafter]

theorem newest_first_perm (files : List (RolloutFile P)) : (newest_first files).Perm files :=
  List.perm_insertionSort _ _

theorem newest_first_sorted (files : List (RolloutFile P)) :
    (newest_first files).Pairwise (fun a b => b.rank ≤ a.rank) := by
  have htotal : Std.Total (fun a b : RolloutFile P => b.rank ≤ a.rank) :=
    ⟨fun a b => le_total b.rank a.rank⟩
  have htrans : IsTrans (RolloutFile P) (fun a b => b.rank ≤ a.rank) :=
    ⟨fun _ _ _ hab hbc => le_trans hbc hab⟩
  exact List.pairwise_insertionSort _ _

/-- The scan goes over all files. -/
theorem scan_order_perm (sessions : Sessions P) :
    (scan_order sessions).Perm (files_of (some sessions)) := by
  refine List.Perm.flatMap (List.perm_insertionSort _ _) (fun year _ => ?_)
  refine List.Perm.flatMap (List.perm_insertionSort _ _) (fun month _ => ?_)
  exact List.Perm.flatMap (List.perm_insertionSort _ _) (fun day _ => newest_first_perm _)

section distinct

variable {root : Option (Sessions P)} {allowed : List SessionSource}
  (hdistinct : ((files_of root).map RolloutFile.cursor).Nodup)

include hdistinct

/-- Files of one rank are one file. -/
theorem eq_of_rank {f g : RolloutFile P} (hf : f ∈ files_of root) (hg : g ∈ files_of root)
    (h : f.rank = g.rank) : f = g := by
  have hpair : f.cursor.pair = g.cursor.pair := congrArg (fun r => (ofLex r).2) h
  exact List.inj_on_of_nodup_map hdistinct hf hg (Cursor.pair_injective hpair)

/-- Files without repeats in the order of modification are those of all conversations that are
among them. -/
theorem newest_first_eq_filter {files : List (RolloutFile P)}
    (hnodup : files.Nodup) (hsub : ∀ f ∈ files, f ∈ (files_of root).filter (listable allowed)) :
    newest_first files = (by_modification root allowed).filter (fun f => decide (f ∈ files)) := by
  have hall := newest_first_perm ((files_of root).filter (listable allowed))
  have hnodup' : ((files_of root).filter (listable allowed)).Nodup :=
    (List.Nodup.of_map _ hdistinct).filter _
  have hperm : (newest_first files).Perm
      ((by_modification root allowed).filter (fun f => decide (f ∈ files))) := by
    refine (newest_first_perm files).trans ?_
    apply (List.perm_ext_iff_of_nodup hnodup ((hall.nodup_iff.mpr hnodup').filter _)).mpr
    intro f
    rw [List.mem_filter, decide_eq_true_iff]
    exact ⟨fun hf => ⟨hall.mem_iff.mpr (hsub f hf), hf⟩, fun h => h.2⟩
  refine List.Perm.eq_of_pairwise ?_ (newest_first_sorted files)
    ((newest_first_sorted _).sublist List.filter_sublist) hperm
  intro f g hf hg hfg hgf
  have hmem : ∀ x ∈ newest_first files, x ∈ files_of root := fun x hx =>
    List.mem_of_mem_filter (hsub x ((newest_first_perm files).mem_iff.mp hx))
  exact eq_of_rank hdistinct (hmem f hf) (hmem g (hperm.mem_iff.mpr hg)) (le_antisymm hgf hfg)

/-- The conversations have no repeats in the order of modification. -/
theorem by_modification_nodup : (by_modification root allowed).Nodup :=
  (newest_first_perm _).nodup_iff.mpr ((List.Nodup.of_map _ hdistinct).filter _)

end distinct

/-! ## A page is a page of the order of modification -/

section pages

variable {root : Option (Sessions P)} {allowed : List SessionSource} {page_size : Nat}

/-- The conversations that a cursor leads to. -/
def led_to (root : Option (Sessions P)) (allowed : List SessionSource) (anchor : Cursor)
    (f : RolloutFile P) : Bool :=
  decide (f ∈ scanned_after root allowed anchor)

theorem getD_perm : (scan_order (root.getD [])).Perm (files_of root) := by
  cases root with
  | none => exact List.Perm.refl _
  | some sessions => exact scan_order_perm sessions

theorem scanned_after_sublist (anchor : Cursor) :
    (scanned_after root allowed anchor).Sublist
      ((scan_order (root.getD [])).filter (listable allowed)) :=
  (List.dropWhile_sublist _).filter _

theorem mem_by_modification {f : RolloutFile P} :
    f ∈ by_modification root allowed ↔ f ∈ files_of root ∧ listable allowed f = true := by
  unfold by_modification
  rw [(newest_first_perm _).mem_iff, List.mem_filter]

/-- What the scan leaves in the order of modification is what the cursor leads to. -/
theorem candidates_eq (hdistinct : ((files_of root).map RolloutFile.cursor).Nodup)
    (hcap : (files_of root).length < MAX_SCAN_FILES) (cursor : Option Cursor) :
    newest_first
        (scan allowed (cursor.getD ⟨0, 0⟩) 0 cursor.isNone (scan_order (root.getD []))).2 =
      admitted (led_to root allowed) (by_modification root allowed) cursor := by
  have hlen : 0 + (scan_order (root.getD [])).length < MAX_SCAN_FILES := by
    rw [getD_perm.length_eq]
    omega
  have hnodup : (scan_order (root.getD [])).Nodup :=
    getD_perm.nodup_iff.mpr (List.Nodup.of_map _ hdistinct)
  rw [scan_eq hlen]
  cases cursor with
  | none =>
    have hall : ∀ f ∈ by_modification root allowed,
        decide (f ∈ (scan_order (root.getD [])).filter (listable allowed)) = true := by
      intro f hf
      rw [decide_eq_true_iff, List.mem_filter, getD_perm.mem_iff]
      exact mem_by_modification.mp hf
    have hsub : ∀ f ∈ (scan_order (root.getD [])).filter (listable allowed),
        f ∈ (files_of root).filter (listable allowed) :=
      fun f hf => (getD_perm.filter _).mem_iff.mp hf
    simp only [Option.isNone_none, if_true, admitted]
    rw [newest_first_eq_filter hdistinct (hnodup.filter _) hsub, List.filter_eq_self.mpr hall]
  | some c =>
    have hsub : ∀ f ∈ scanned_after root allowed c,
        f ∈ (files_of root).filter (listable allowed) :=
      fun f hf => (getD_perm.filter _).mem_iff.mp ((scanned_after_sublist c).subset hf)
    have hnodup' : (scanned_after root allowed c).Nodup :=
      (hnodup.filter _).sublist (scanned_after_sublist c)
    exact newest_first_eq_filter hdistinct hnodup' hsub

theorem get_conversations_eq (cursor : Option Cursor) :
    get_conversations root page_size cursor allowed =
      traverse_directories_for_paths (root.getD []) page_size cursor allowed := by
  cases root with
  | some sessions => rfl
  | none => simp [get_conversations, traverse_directories_for_paths, scan_order, scan,
      collect_dirs_desc, newest_first, build_next_cursor, MAX_SCAN_FILES]

theorem items_eq (hdistinct : ((files_of root).map RolloutFile.cursor).Nodup)
    (hcap : (files_of root).length < MAX_SCAN_FILES) (cursor : Option Cursor) :
    (get_conversations root page_size cursor allowed).items =
      page (led_to root allowed) page_size (by_modification root allowed) cursor := by
  rw [get_conversations_eq]
  unfold page
  rw [← candidates_eq hdistinct hcap]
  rfl

/-- The next cursor is that of the last item. -/
theorem next_cursor_eq (cursor : Option Cursor) :
    (get_conversations root page_size cursor allowed).next_cursor =
      (get_conversations root page_size cursor allowed).items.getLast?.map
        RolloutFile.cursor := by
  rw [get_conversations_eq]
  simp only [traverse_directories_for_paths, build_next_cursor]
  cases h : (List.take page_size (newest_first
      (scan allowed (cursor.getD ⟨0, 0⟩) 0 cursor.isNone (scan_order (root.getD []))).2)).getLast?
    with
  | none => rfl
  | some last => exact last.named

/-- The calls are a listing by pages of the order of modification. -/
theorem lists_iff_listed (hdistinct : ((files_of root).map RolloutFile.cursor).Nodup)
    (hcap : (files_of root).length < MAX_SCAN_FILES) {cursor : Option Cursor}
    {out : List (RolloutFile P)} :
    Lists root page_size allowed cursor out ↔
      Listed RolloutFile.cursor (led_to root allowed) page_size (by_modification root allowed)
        cursor out := by
  constructor
  · intro h
    induction h with
    | @done cursor hitems =>
      rw [items_eq hdistinct hcap] at hitems
      exact .done hitems
    | @more cursor rest hitems _ ih =>
      rw [next_cursor_eq, items_eq hdistinct hcap] at ih
      rw [items_eq hdistinct hcap] at hitems ⊢
      obtain ⟨last, hlast⟩ := Option.ne_none_iff_exists'.mp
        (fun h => hitems (List.getLast?_eq_none_iff.mp h))
      rw [hlast] at ih
      exact .more hlast ih
  · intro h
    induction h with
    | @done cursor hpage =>
      rw [← items_eq hdistinct hcap] at hpage
      exact .done hpage
    | @more cursor last rest hlast _ ih =>
      rw [← items_eq hdistinct hcap] at hlast ⊢
      refine .more ?_ ?_
      · intro hnil
        simp [hnil] at hlast
      · rw [next_cursor_eq, hlast]
        exact ih

/-- A later cursor leads to more. -/
theorem led_to_mono {c c' : Cursor} (h : c ≤ c') (f : RolloutFile P)
    (hf : led_to root allowed c f = true) : led_to root allowed c' f = true := by
  have hweak : ∀ g : RolloutFile P, (!after_anchor c' g) = true → (!after_anchor c g) = true := by
    intro g hg
    rw [Bool.not_eq_true', ← Bool.not_eq_true, after_anchor_iff] at hg ⊢
    exact fun hlt => hg (lt_of_lt_of_le hlt h)
  unfold led_to scanned_after at hf ⊢
  rw [decide_eq_true_iff, List.mem_filter] at hf ⊢
  exact ⟨dropWhile_subset hweak hf.1, hf.2⟩

/-- A cursor leads to every older conversation. -/
theorem led_to_older {c : Cursor} {f : RolloutFile P} (hf : f ∈ by_modification root allowed)
    (h : f.cursor < c) : led_to root allowed c f = true := by
  obtain ⟨hmem, hlist⟩ := mem_by_modification.mp hf
  unfold led_to scanned_after
  rw [decide_eq_true_iff, List.mem_filter]
  refine ⟨mem_dropWhile (getD_perm.mem_iff.mpr hmem) ?_, hlist⟩
  rw [after_anchor_iff.mpr h]
  rfl

/-- For all files with distinct times and UUIDs, fewer than the cap, and every page size: the
calls answer every conversation once just where every page end meets. -/
theorem lists_all_once_iff_page_ends_meet (root : Option (Sessions P)) (page_size : Nat)
    (allowed : List SessionSource) (hdistinct : ((files_of root).map RolloutFile.cursor).Nodup)
    (hcap : (files_of root).length < MAX_SCAN_FILES) (hsize : 1 ≤ page_size) :
    ListsAllOnce root page_size allowed ↔ PageEndsMeet root page_size allowed := by
  have hperm := newest_first_perm ((files_of root).filter (listable allowed))
  have honce : (∃ out, Listed RolloutFile.cursor (led_to root allowed) page_size
        (by_modification root allowed) none out ∧ out.Perm (by_modification root allowed)) ↔
      Meets RolloutFile.cursor (led_to root allowed) page_size (by_modification root allowed) :=
    listed_once_iff_meets hsize (by_modification_nodup hdistinct) (fun _ _ h => led_to_mono h)
      (fun _ _ hf h => led_to_older hf h)
  have hmeets : PageEndsMeet root page_size allowed ↔
      Meets RolloutFile.cursor (led_to root allowed) page_size (by_modification root allowed) := by
    unfold PageEndsMeet Meets led_to
    simp only [decide_eq_true_iff]
  rw [hmeets, ← honce]
  unfold ListsAllOnce
  constructor
  · rintro ⟨out, hlists, hout⟩
    exact ⟨out, (lists_iff_listed hdistinct hcap).mp hlists, hout.trans hperm.symm⟩
  · rintro ⟨out, hlisted, hout⟩
    exact ⟨out, (lists_iff_listed hdistinct hcap).mpr hlisted, hout.trans hperm⟩

/-! ## Two files of one day -/

/-- A text of `n` decimal digits. -/
def digits (n : Nat) (t : Text) : Option Nat :=
  if t.length = n ∧ t.all Char.isDigit then
    some (t.foldl (fun value c => 10 * value + (c.toNat - '0'.toNat)) 0)
  else none

/-- A hexadecimal digit. -/
def hex_digit (c : Char) : Option Nat :=
  if c.isDigit then some (c.toNat - '0'.toNat)
  else if 'a' ≤ c ∧ c ≤ 'f' then some (c.toNat - 'a'.toNat + 10)
  else if 'A' ≤ c ∧ c ≤ 'F' then some (c.toNat - 'A'.toNat + 10)
  else none

/-- A UUID in its form with dashes. -/
def hyphenated_uuid (t : Text) : Option Nat :=
  if (Text.split '-' t).map List.length = [8, 4, 4, 4, 12] then
    (t.filter (· ≠ '-')).foldlM (fun value c => (hex_digit c).map (fun d => 16 * value + d)) 0
  else none

/-- `[year]-[month]-[day]T[hour]-[minute]-[second]`, of a year of four digits. -/
def file_datetime (t : Text) : Option Int := do
  let [date, time] := Text.split 'T' t | none
  let [year, month, day] := Text.split '-' date | none
  let [hour, minute, second] := Text.split '-' time | none
  let date : Date := { year := ← digits 4 year, month := ← digits 2 month, day := ← digits 2 day }
  let hour ← digits 2 hour
  let minute ← digits 2 minute
  let second ← digits 2 second
  if date_of (from_ymd date) = date ∧ hour < 24 ∧ minute < 60 ∧ second < 60 then
    some (86400 * from_ymd date + 3600 * hour + 60 * minute + second)
  else none

def plain_parsers : Parsers where
  uuid := hyphenated_uuid
  datetime := file_datetime

/-- The conversation of 10:00 on the first of January 2025. -/
def morning_file (modified : Int) : RolloutFile plain_parsers where
  name := "rollout-2025-01-01T10-00-00-00000000-0000-0000-0000-00000000000a.jsonl".toList
  cursor := { ts := 1735725600, id := 10 }
  named := by decide +kernel
  modified := modified
  lines := some [some (.SessionMeta .Cli), some (.EventMsg (some .UserMessage))]

/-- The conversation of 11:00 on that day. -/
def later_file (modified : Int) : RolloutFile plain_parsers where
  name := "rollout-2025-01-01T11-00-00-00000000-0000-0000-0000-00000000000b.jsonl".toList
  cursor := { ts := 1735729200, id := 11 }
  named := by decide +kernel
  modified := modified
  lines := some [some (.SessionMeta .Cli), some (.EventMsg (some .UserMessage))]

/-- The two files in the directory of their day. -/
def one_day (morning later : Int) : Option (Sessions plain_parsers) :=
  some [⟨2025, [⟨1, [⟨1, [morning_file morning, later_file later]⟩]⟩]⟩]

/-- When the conversation of the morning was taken up again after the later one, pages of one item
list it alone: the later one is lost. -/
theorem resumed_conversation_hides_a_newer_one : ¬ ListsAllOnce (one_day 2 1) 1 [] := by
  rintro ⟨out, hlists, hperm⟩
  have hfirst : (get_conversations (one_day 2 1) 1 none []).items = [morning_file 2] := by
    decide +kernel
  have hnext : (get_conversations (one_day 2 1) 1 none []).next_cursor = some ⟨1735725600, 10⟩ := by
    decide +kernel
  have hend : (get_conversations (one_day 2 1) 1 (some ⟨1735725600, 10⟩) []).items = [] := by
    decide +kernel
  have hall : ((files_of (one_day 2 1)).filter (listable [])).length = 2 := by decide +kernel
  have hlen := hperm.length_eq
  rw [hall] at hlen
  cases hlists with
  | done hitems => simp at hlen
  | more _ hrest =>
    rw [hnext] at hrest
    cases hrest with
    | done _ => simp [hfirst] at hlen
    | more hne _ => exact hne hend

/-! ## Files that were modified in the order of their creation -/

/-- In the order of modification the creation times go down too, when no file was modified after
one that was created later. -/
theorem by_modification_created (hdistinct : ((files_of root).map RolloutFile.cursor).Nodup)
    (hmodified : ∀ f ∈ files_of root, ∀ g ∈ files_of root, f.cursor < g.cursor →
      f.rank ≤ g.rank) :
    (by_modification root allowed).Pairwise (fun f g => g.cursor < f.cursor) := by
  have hsorted := newest_first_sorted ((files_of root).filter (listable allowed))
  have hnodup : (by_modification root allowed).Nodup := by_modification_nodup hdistinct
  refine (List.Pairwise.and_mem.mp (hsorted.and hnodup)).imp ?_
  rintro f g ⟨hf, hg, hrank, hne⟩
  have hf' := (mem_by_modification.mp hf).1
  have hg' := (mem_by_modification.mp hg).1
  by_contra hlt
  rcases lt_or_eq_of_le (not_lt.mp hlt) with hlt | heq
  · exact hne (eq_of_rank hdistinct hf' hg' (le_antisymm (hmodified f hf' g hg' hlt) hrank))
  · exact hne (List.inj_on_of_nodup_map hdistinct hf' hg' heq)

/-- In a list whose creation times go down, what is left after an item is what is older. -/
theorem mem_drop_iff_older {files : List (RolloutFile P)} {n : Nat} {f g : RolloutFile P}
    (hdown : files.Pairwise (fun f g => g.cursor < f.cursor)) (hn : 0 < n)
    (hf : files[n - 1]? = some f) (hg : g ∈ files) :
    g ∈ files.drop n ↔ g.cursor < f.cursor := by
  obtain ⟨hlt, rfl⟩ := List.getElem?_eq_some_iff.mp hf
  obtain ⟨j, hj, rfl⟩ := List.getElem_of_mem hg
  rw [List.pairwise_iff_getElem] at hdown
  rw [List.mem_drop_iff_getElem]
  constructor
  · rintro ⟨i, hi, heq⟩
    rw [← heq]
    exact hdown (n - 1) (n + i) hlt (by omega) (by omega)
  · intro hold
    have hjn : n ≤ j := by
      by_contra hlow
      rcases Nat.lt_or_ge j (n - 1) with hj' | hj'
      · exact absurd (hdown j (n - 1) hj hlt hj') (not_lt_of_gt hold)
      · have hjeq : j = n - 1 := by omega
        subst hjeq
        exact lt_irrefl _ hold
    refine ⟨j - n, by omega, ?_⟩
    congr 1
    omega

/-- Where the scan goes down in creation time, and no file was modified after one that was created
later, every page end meets. -/
theorem page_ends_meet_in_creation_order
    (hdistinct : ((files_of root).map RolloutFile.cursor).Nodup)
    (hscan : (scan_order (root.getD [])).Pairwise (fun f g => g.cursor < f.cursor))
    (hmodified : ∀ f ∈ files_of root, ∀ g ∈ files_of root, f.cursor < g.cursor →
      f.rank ≤ g.rank) :
    PageEndsMeet root page_size allowed := by
  intro n hend f hf g hg
  rw [mem_drop_iff_older (by_modification_created hdistinct hmodified) hend.1 hf hg]
  constructor
  · intro hmem
    have hdrop := (List.mem_filter.mp hmem).1
    have hdown := hscan.sublist (List.dropWhile_sublist (fun g => !after_anchor f.cursor g))
    cases hrest : (scan_order (root.getD [])).dropWhile (fun g => !after_anchor f.cursor g) with
    | nil => simp [hrest] at hdrop
    | cons first rest =>
      -- the first file of the rest is older, and the others are older than it
      have hfirst := List.head_dropWhile_not (fun g => !after_anchor f.cursor g)
        (l := scan_order (root.getD [])) (by simp [hrest])
      rw [hrest] at hdrop hdown
      simp only [hrest, List.head_cons, Bool.not_eq_false', after_anchor_iff] at hfirst
      rcases List.mem_cons.mp hdrop with rfl | hrest'
      · exact hfirst
      · exact lt_trans ((List.pairwise_cons.mp hdown).1 g hrest') hfirst
  · intro hold
    have hled := led_to_older hg hold
    simpa [led_to] using hled

end pages

end listing

/-- Two conversations that were modified in the order of their creation are listed, one a page. -/
theorem unresumed_conversations_are_listed : ListsAllOnce (one_day 1 2) 1 [] := by
  have hdistinct : ((files_of (one_day 1 2)).map RolloutFile.cursor).Nodup := by decide +kernel
  refine (lists_all_once_iff_page_ends_meet (one_day 1 2) 1 [] hdistinct (by decide +kernel)
    (le_refl 1)).mpr ?_
  exact page_ends_meet_in_creation_order hdistinct (by decide +kernel) (by decide +kernel)

end Ecode.rollout
