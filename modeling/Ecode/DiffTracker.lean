-- The diff of a turn (core/src/turn_diff_tracker.rs): the internal name and the
-- baseline that each changed file gets before a patch is applied, the moves that
-- are followed under that name, and the file diffs against the files on disk.
import Ecode.ApplyInProcess
import Ecode.Runs
import Ecode.TwoWayMaps

open Ecode.runs Ecode.two_way_maps Ecode.updates

namespace Ecode.turn_diff_tracker

/-! ## The tracker -/

/-- `FileChange`. The text of its own diff and the old content are not read here. -/
inductive FileChange (B : Type) where
  | Add (content : B)
  | Delete
  | Update (move_path : Option Path) (new_content : B)
  deriving DecidableEq, Repr

/-- The path and the content at which an internal file was first seen. There is no content when
there was no file, which the source marks with `ZERO_OID`. -/
structure BaselineFileInfo (B : Type) where
  path : Path
  content : Option B
  deriving DecidableEq, Repr

structure TurnDiffTracker (B : Type) where
  external_to_temp_name : Path → Option Nat
  baseline_file_info : List (Nat × BaselineFileInfo B)
  temp_name_to_current_path : Nat → Option Path
  /-- No internal name from this one on is in use. -/
  fresh : Nat

/-- The files on disk. -/
abbrev Disk (B : Type) := Path → Option B

section tracker

variable {B : Type}

namespace TurnDiffTracker

/-- `TurnDiffTracker::new`. -/
def new : TurnDiffTracker B where
  external_to_temp_name := fun _ => none
  baseline_file_info := []
  temp_name_to_current_path := fun _ => none
  fresh := 0

/-- A path that is not tracked gets an internal name and a baseline. -/
def ensure_tracked (disk : Disk B) (t : TurnDiffTracker B) (path : Path) : TurnDiffTracker B :=
  match t.external_to_temp_name path with
  | some _ => t
  | none =>
    { external_to_temp_name := Function.update t.external_to_temp_name path (some t.fresh)
      baseline_file_info := t.baseline_file_info ++ [(t.fresh, { path, content := disk path })]
      temp_name_to_current_path :=
        Function.update t.temp_name_to_current_path t.fresh (some path)
      fresh := t.fresh + 1 }

/-- The internal file of a path goes on under another path. -/
def track_move (t : TurnDiffTracker B) (path dest : Path) : TurnDiffTracker B :=
  match t.external_to_temp_name path with
  | some uuid_filename =>
    { t with
      temp_name_to_current_path :=
        Function.update t.temp_name_to_current_path uuid_filename (some dest)
      external_to_temp_name :=
        Function.update (Function.update t.external_to_temp_name path none) dest
          (some uuid_filename) }
  | none =>
    { external_to_temp_name :=
        Function.update (Function.update t.external_to_temp_name path none) dest (some t.fresh)
      baseline_file_info := t.baseline_file_info ++ [(t.fresh, { path, content := none })]
      temp_name_to_current_path :=
        Function.update t.temp_name_to_current_path t.fresh (some dest)
      fresh := t.fresh + 1 }

/-- One turn of the loop of `on_patch_begin`. -/
def on_change (disk : Disk B) (t : TurnDiffTracker B) :
    Path × FileChange B → TurnDiffTracker B
  | (path, .Update (some dest) _) => track_move (ensure_tracked disk t path) path dest
  | (path, _) => ensure_tracked disk t path

/-- `on_patch_begin`, when the map gives its changes in this order. -/
def on_patch_begin (disk : Disk B) (t : TurnDiffTracker B)
    (changes : List (Path × FileChange B)) : TurnDiffTracker B :=
  changes.foldl (on_change disk) t

/-- `baseline_file_info.get`. -/
def baseline (t : TurnDiffTracker B) (internal : Nat) : Option (BaselineFileInfo B) :=
  (t.baseline_file_info.find? (fun e => e.1 == internal)).map Prod.snd

def get_path_for_internal (t : TurnDiffTracker B) (internal : Nat) : Option Path :=
  (t.temp_name_to_current_path internal).or
    ((t.baseline internal).map BaselineFileInfo.path)

end TurnDiffTracker

/-- The head of a file diff: the two paths of its `diff --git` line, and the paths on its left and
on its right side. A side without one is `/dev/null`. -/
structure FileDiff where
  left_display : Path
  right_display : Path
  old_header : Option Path
  new_header : Option Path
  deriving DecidableEq, Repr

/-- `get_file_diff`. There is none when both sides hold the same bytes or are missing. -/
def get_file_diff [DecidableEq B] (disk : Disk B) (t : TurnDiffTracker B) (internal : Nat) :
    Option FileDiff :=
  let baseline_external_path := ((t.baseline internal).map BaselineFileInfo.path).getD []
  let left_bytes := (t.baseline internal).bind BaselineFileInfo.content
  match t.get_path_for_internal internal with
  | none => none
  | some current_external_path =>
    let right_bytes := disk current_external_path
    if left_bytes = right_bytes then none
    else some
      { left_display := baseline_external_path
        right_display := current_external_path
        old_header := if left_bytes.isSome then some baseline_external_path else none
        new_header := if right_bytes.isSome then some current_external_path else none }

/-- The file diffs of `get_unified_diff`, in the order of the current paths as they are shown. -/
def get_unified_diff [DecidableEq B] (relative_to_git_root_str : Path → Text) (disk : Disk B)
    (t : TurnDiffTracker B) : List FileDiff :=
  let shown (internal : Nat) : Text :=
    ((t.get_path_for_internal internal).map relative_to_git_root_str).getD []
  ((t.baseline_file_info.map Prod.fst).insertionSort (fun i j => shown i ≤ shown j)).filterMap
    (get_file_diff disk t)

/-- The path is on the left or on the right side of a file diff. -/
def FileDiff.has_side (path : Path) (d : FileDiff) : Bool :=
  d.old_header == some path || d.new_header == some path

/-! ## Patches on disk -/

/-- What a change does to the files. -/
def apply_change (disk : Disk B) : Path × FileChange B → Disk B
  | (path, .Add content) => Function.update disk path (some content)
  | (path, .Delete) => Function.update disk path none
  | (path, .Update none new_content) => Function.update disk path (some new_content)
  | (path, .Update (some dest) new_content) =>
    Function.update (Function.update disk path none) dest (some new_content)

/-- A patch: its map of changes in the order in which `on_patch_begin` goes over it, and the order
in which the changes are applied. -/
structure Patch (B : Type) where
  changes : List (Path × FileChange B)
  keys : (changes.map Prod.fst).Nodup
  applied : List (Path × FileChange B)
  all_applied : applied.Perm changes

/-- The tracker and the files. -/
structure Turn (B : Type) where
  tracker : TurnDiffTracker B
  disk : Disk B

/-- A patch is announced and then applied. -/
def Turn.step (s : Turn B) (p : Patch B) : Option (Turn B) :=
  some
    { tracker := s.tracker.on_patch_begin s.disk p.changes
      disk := p.applied.foldl apply_change s.disk }

/-- A turn that begins with these files. -/
def Turn.start (disk : Disk B) : Turn B where
  tracker := .new
  disk := disk

/-! ### The patches of the program -/

/-- `convert_apply_patch_to_protocol`, of one change. -/
def convert_apply_patch_to_protocol :
    Path × apply_patch.ApplyPatchFileChange → Path × FileChange Text
  | (path, .Add content) => (path, .Add content)
  | (path, .Delete _) => (path, .Delete)
  | (path, .Update _ move_path new_content) => (path, .Update move_path new_content)

theorem apply_change_promised (S : Files) (e : Path × apply_patch.ApplyPatchFileChange) :
    apply_change S (convert_apply_patch_to_protocol e) = overlay S (apply_patch.promised e) := by
  obtain ⟨path, change⟩ := e
  rcases change with content | content | ⟨diff, _ | dest, new_content⟩
  · rfl
  · rfl
  · rfl
  · by_cases hd : dest = path
    · simp [apply_change, convert_apply_patch_to_protocol, apply_patch.promised, hd]
    · simp [apply_change, convert_apply_patch_to_protocol, apply_patch.promised, hd,
        Function.update_comm hd]

/-- The applier of the program leaves the files that the changes of its patch make. -/
theorem applied_in_process {order : List (Path × apply_patch.ApplyPatchFileChange)}
    (hnd : (order.map Prod.fst).Nodup) {S : Files} (hp : ∀ e ∈ order, apply_patch.Present S e) :
    ∃ affected, apply_patch.apply_changes_from_apply_patch plain order S =
      (.ok affected, (order.map convert_apply_patch_to_protocol).foldl apply_change S) := by
  have hfold : ∀ (order : List (Path × apply_patch.ApplyPatchFileChange)) (S : Files),
      (order.map convert_apply_patch_to_protocol).foldl apply_change S =
        overlay S (order.flatMap apply_patch.promised) := by
    intro order
    induction order with
    | nil => exact fun _ => rfl
    | cons e order ih =>
      intro S
      rw [List.map_cons, List.foldl_cons, apply_change_promised, ih, List.flatMap_cons,
        overlay_append]
  rw [hfold]
  exact apply_patch.apply_changes_plain hnd hp apply_patch.AffectedPaths.none

/-! ## What the tracker keeps -/

/-- No two internal files have the same current path, and the two maps are inverse to each
other. -/
structure OneToOne (t : TurnDiffTracker B) : Prop where
  distinct : ∀ i j p, t.temp_name_to_current_path i = some p →
    t.temp_name_to_current_path j = some p → i = j
  inverse : ∀ p i, t.external_to_temp_name p = some i ↔ t.temp_name_to_current_path i = some p

/-! ## Names and paths -/

/-- The maps are inverse, and no name from `fresh` on has a path. -/
structure Named (t : TurnDiffTracker B) : Prop where
  paired : Paired t.external_to_temp_name t.temp_name_to_current_path
  unused : ∀ i, t.fresh ≤ i → t.temp_name_to_current_path i = none

theorem Named.one_to_one {t : TurnDiffTracker B} (h : Named t) : OneToOne t where
  distinct := fun _ _ _ hi hj => h.paired.key_injective hi hj
  inverse := h.paired

theorem named_new : Named (TurnDiffTracker.new : TurnDiffTracker B) := by
  constructor
  all_goals simp [TurnDiffTracker.new, Paired]

theorem ensure_tracked_some (t : TurnDiffTracker B) (disk : Disk B) (path : Path) :
    ∃ i, (t.ensure_tracked disk path).external_to_temp_name path = some i := by
  unfold TurnDiffTracker.ensure_tracked
  split
  · rename_i i hi
    exact ⟨i, hi⟩
  · exact ⟨t.fresh, by simp⟩

theorem Named.ensure_tracked {t : TurnDiffTracker B} (h : Named t) (disk : Disk B) (path : Path) :
    Named (t.ensure_tracked disk path) := by
  unfold TurnDiffTracker.ensure_tracked
  split
  · exact h
  · rename_i hnone
    refine ⟨h.paired.add hnone (h.unused t.fresh (le_refl _)), ?_⟩
    intro i hi
    dsimp only at hi ⊢
    rw [Function.update_of_ne (by omega)]
    exact h.unused i (by omega)

theorem track_move_eq {t : TurnDiffTracker B} {path dest : Path} {i : Nat}
    (hi : t.external_to_temp_name path = some i) :
    t.track_move path dest =
      { t with
        temp_name_to_current_path := Function.update t.temp_name_to_current_path i (some dest)
        external_to_temp_name :=
          Function.update (Function.update t.external_to_temp_name path none) dest (some i) } := by
  unfold TurnDiffTracker.track_move
  rw [hi]

/-- A move keeps the maps inverse when it does not land on another tracked file. -/
theorem Named.track_move {t : TurnDiffTracker B} (h : Named t) {path dest : Path} {i : Nat}
    (hi : t.external_to_temp_name path = some i)
    (hdest : dest = path ∨ t.external_to_temp_name dest = none) :
    Named (t.track_move path dest) := by
  have hcur := (h.paired path i).mp hi
  have hused : i < t.fresh := by
    by_contra hge
    rw [h.unused i (by omega)] at hcur
    simp at hcur
  rw [track_move_eq hi]
  refine ⟨?_, ?_⟩
  · rcases hdest with rfl | hnone
    · obtain ⟨hext, hpath⟩ := h.paired.move_self hi
      dsimp only
      rw [hext, hpath]
      exact h.paired
    · exact h.paired.move hi hnone
  · intro j hj
    dsimp only at hj ⊢
    rw [Function.update_of_ne (by omega)]
    exact h.unused j hj

def FileChange.moved_to : FileChange B → Option Path
  | .Update move_path _ => move_path
  | _ => none

/-- The change moves its file onto the path of another tracked file. -/
def LandsOnTracked (t : TurnDiffTracker B) (c : Path × FileChange B) : Prop :=
  ∃ dest ∈ c.2.moved_to, dest ≠ c.1 ∧ (t.external_to_temp_name dest).isSome

section change

variable {orig disk disk' : Disk B} {t : TurnDiffTracker B} {c : Path × FileChange B}
  {cs : List (Path × FileChange B)} {q : Path}

theorem on_change_of_none (h : c.2.moved_to = none) :
    t.on_change disk c = t.ensure_tracked disk c.1 := by
  obtain ⟨path, change⟩ := c
  cases change with
  | Add content => rfl
  | Delete => rfl
  | Update move_path content =>
    obtain rfl : move_path = none := h
    rfl

theorem on_change_of_some {dest : Path} (h : c.2.moved_to = some dest) :
    t.on_change disk c = (t.ensure_tracked disk c.1).track_move c.1 dest := by
  obtain ⟨path, change⟩ := c
  cases change with
  | Add content => simp [FileChange.moved_to] at h
  | Delete => simp [FileChange.moved_to] at h
  | Update move_path content =>
    obtain rfl : move_path = some dest := h
    rfl

theorem ensure_tracked_ext {path : Path} (hq : q ≠ path) :
    (t.ensure_tracked disk path).external_to_temp_name q = t.external_to_temp_name q := by
  unfold TurnDiffTracker.ensure_tracked
  split
  · rfl
  · exact Function.update_of_ne hq _ _

theorem Named.on_change (h : Named t) (hoff : ¬ LandsOnTracked t c) :
    Named (t.on_change disk c) := by
  cases hmove : c.2.moved_to with
  | none =>
    rw [on_change_of_none hmove]
    exact h.ensure_tracked disk c.1
  | some dest =>
    rw [on_change_of_some hmove]
    obtain ⟨i, hi⟩ := ensure_tracked_some t disk c.1
    refine (h.ensure_tracked disk c.1).track_move hi ?_
    by_cases heq : dest = c.1
    · exact .inl heq
    · rw [ensure_tracked_ext heq]
      by_contra hsome
      rw [not_or] at hsome
      exact hoff ⟨dest, hmove, heq, Option.isSome_iff_ne_none.mpr hsome.2⟩

/-- In the order in which the changes are handled, none lands on a tracked file. -/
def KeepsOff (disk : Disk B) (t : TurnDiffTracker B) (changes : List (Path × FileChange B)) :
    Prop :=
  Guarded (fun t c => some (TurnDiffTracker.on_change disk t c))
    (fun t c => ¬ LandsOnTracked t c) t changes

theorem Named.on_patch_begin (h : Named t) (hoff : KeepsOff disk t cs) :
    Named (t.on_patch_begin disk cs) := by
  refine Guarded.invariant (I := Named) ?_ hoff h List.foldlM_pure
  intro t c t' ht hc hstep
  obtain rfl : _ = t' := by simpa using hstep
  exact ht.on_change hc

end change

/-! ## Baselines -/

/-- The invariant of a turn that began with the files `orig`. -/
structure Tracks (orig : Disk B) (t : TurnDiffTracker B) (disk : Disk B) : Prop where
  paired : Paired t.external_to_temp_name t.temp_name_to_current_path
  names : (t.baseline_file_info.map Prod.fst).Nodup
  in_use : ∀ e ∈ t.baseline_file_info, e.1 < t.fresh
  /-- Just the internal files with a baseline have a current path. -/
  placed : ∀ i, (∃ p, t.temp_name_to_current_path i = some p) ↔
    ∃ info, (i, info) ∈ t.baseline_file_info
  /-- A baseline is what the turn began with. -/
  original : ∀ e ∈ t.baseline_file_info, e.2.content = orig e.2.path
  /-- A file of the beginning has one baseline. -/
  one_baseline : ∀ e ∈ t.baseline_file_info, ∀ e' ∈ t.baseline_file_info, e.2.path = e'.2.path →
    e.2.content.isSome → e = e'
  /-- A moved file is where there was none. -/
  arrived : ∀ e ∈ t.baseline_file_info, ∀ p, t.temp_name_to_current_path e.1 = some p →
    e.2.path ≠ p → orig p = none
  /-- A path that is not tracked is as it was, or was left by a move. -/
  rest : ∀ q, t.external_to_temp_name q = none →
    disk q = orig q ∨ disk q = none ∧ ∃ e ∈ t.baseline_file_info, e.2.path = q

section step

variable {orig disk : Disk B} {t : TurnDiffTracker B} {path dest : Path}

theorem tracks_start : Tracks disk TurnDiffTracker.new disk := by
  refine ⟨?_, ?_, ?_, ?_, ?_, ?_, ?_, ?_⟩
  all_goals simp [TurnDiffTracker.new, Paired]

theorem Tracks.fresh_unplaced (h : Tracks orig t disk) :
    t.temp_name_to_current_path t.fresh = none := by
  cases hcur : t.temp_name_to_current_path t.fresh with
  | none => rfl
  | some p =>
    obtain ⟨info, hinfo⟩ := (h.placed t.fresh).mp ⟨p, hcur⟩
    have := h.in_use _ hinfo
    omega

/-- No file of the beginning was moved away from the path. -/
def NotLeft (t : TurnDiffTracker B) (path : Path) : Prop :=
  ∀ e ∈ t.baseline_file_info, e.2.path = path → e.2.content.isSome →
    t.temp_name_to_current_path e.1 = some path

/-- A path that is not tracked and that no file was moved away from has no baseline with a
content. -/
theorem Tracks.no_baseline (h : Tracks orig t disk) (hnone : t.external_to_temp_name path = none)
    (hleft : NotLeft t path) :
    ∀ e ∈ t.baseline_file_info, e.2.path = path → e.2.content = none := by
  intro e he hpath
  by_contra hcontent
  have hcur := hleft e he hpath (Option.isSome_iff_ne_none.mpr hcontent)
  exact h.paired.ne_of_none hnone hcur rfl

/-- Such a path is as it was. -/
theorem Tracks.untouched (h : Tracks orig t disk) (hnone : t.external_to_temp_name path = none)
    (hleft : NotLeft t path) : disk path = orig path := by
  rcases h.rest path hnone with heq | ⟨hdisk, e, he, hpath⟩
  · exact heq
  · rw [hdisk, ← hpath, ← h.original e he]
    exact (h.no_baseline hnone hleft e he hpath).symm

/-- The fresh name is new among the baselines. -/
theorem Tracks.names_added (h : Tracks orig t disk) {e : Nat × BaselineFileInfo B}
    (hfresh : e.1 = t.fresh) : ((t.baseline_file_info ++ [e]).map Prod.fst).Nodup := by
  rw [List.map_append, List.map_singleton, ← List.concat_eq_append]
  apply h.names.concat
  intro hin
  obtain ⟨old, hold, hsame⟩ := List.mem_map.mp hin
  have hlt := h.in_use old hold
  omega

/-- A baseline of what the turn began with, at a path that has none with a content, stays the only
one of its path. -/
theorem Tracks.one_baseline_added (h : Tracks orig t disk) {e : Nat × BaselineFileInfo B}
    (horiginal : e.2.content = orig e.2.path)
    (hnew : ∀ old ∈ t.baseline_file_info, old.2.path = e.2.path → old.2.content = none) :
    ∀ a ∈ t.baseline_file_info ++ [e], ∀ b ∈ t.baseline_file_info ++ [e],
      a.2.path = b.2.path → a.2.content.isSome → a = b := by
  intro a ha b hb hpath hcontent
  rcases List.mem_append.mp ha with ha | ha <;> rcases List.mem_append.mp hb with hb | hb
  · exact h.one_baseline a ha b hb hpath hcontent
  · rw [List.mem_singleton.mp hb] at hpath
    simp [hnew a ha hpath] at hcontent
  · rw [List.mem_singleton.mp ha] at hpath hcontent
    have hnone := hnew b hb hpath.symm
    rw [h.original b hb, ← hpath, ← horiginal] at hnone
    simp [hnone] at hcontent
  · rw [List.mem_singleton.mp ha, List.mem_singleton.mp hb]

/-- A path that no file was moved away from may be tracked. -/
theorem ensure_tracked_tracks (h : Tracks orig t disk) (hleft : NotLeft t path) :
    Tracks orig (t.ensure_tracked disk path) disk := by
  unfold TurnDiffTracker.ensure_tracked
  split
  · exact h
  · rename_i hnone
    have hnew := h.no_baseline hnone hleft
    have hsame := h.untouched hnone hleft
    have holds : ∀ e ∈ t.baseline_file_info,
        Function.update t.temp_name_to_current_path t.fresh (some path) e.1 =
          t.temp_name_to_current_path e.1 := by
      intro e he
      have := h.in_use e he
      exact Function.update_of_ne (by omega) _ _
    refine ⟨h.paired.add hnone h.fresh_unplaced, ?_, ?_, ?_, ?_, ?_, ?_, ?_⟩
    all_goals dsimp only
    · exact h.names_added rfl
    · intro e he
      rcases List.mem_append.mp he with he | he
      · have := h.in_use e he
        omega
      · simp [List.mem_singleton.mp he]
    · intro i
      by_cases hi : i = t.fresh
      · subst hi
        simp
      · rw [Function.update_of_ne hi, h.placed i]
        simp [hi]
    · intro e he
      rcases List.mem_append.mp he with he | he
      · exact h.original e he
      · rw [List.mem_singleton.mp he]
        exact hsame
    · exact h.one_baseline_added hsame hnew
    · intro e he p hp hne
      rcases List.mem_append.mp he with he | he
      · rw [holds e he] at hp
        exact h.arrived e he p hp hne
      · rw [List.mem_singleton.mp he] at hp hne
        simp only [Function.update_self, Option.some.injEq] at hp
        exact absurd hp hne
    · intro q hq
      have hne : q ≠ path := by
        rintro rfl
        simp at hq
      rw [Function.update_of_ne hne] at hq
      rcases h.rest q hq with heq | ⟨hdisk, e, he, hpath⟩
      · exact .inl heq
      · exact .inr ⟨hdisk, e, List.mem_append_left _ he, hpath⟩

/-- A tracked path may be written or removed. -/
theorem Tracks.write {content : Option B} (h : Tracks orig t disk) {i : Nat}
    (hi : t.external_to_temp_name path = some i) :
    Tracks orig t (Function.update disk path content) := by
  refine ⟨h.paired, h.names, h.in_use, h.placed, h.original, h.one_baseline, h.arrived, ?_⟩
  intro q hq
  have hne : q ≠ path := by
    rintro rfl
    simp [hi] at hq
  rw [Function.update_of_ne hne]
  exact h.rest q hq

/-- A tracked file may be moved to a path where there is none, which is not tracked and which no
other file was moved away from. -/
theorem Tracks.move {content : B} (h : Tracks orig t disk) {i : Nat}
    (hi : t.external_to_temp_name path = some i) (hnone : t.external_to_temp_name dest = none)
    (hfree : disk dest = none)
    (hleft : ∀ e ∈ t.baseline_file_info, e.2.path = dest → e.2.content.isSome →
      t.temp_name_to_current_path e.1 = some path) :
    Tracks orig (t.track_move path dest)
      (Function.update (Function.update disk path none) dest (some content)) := by
  have hcur : t.temp_name_to_current_path i = some path := (h.paired path i).mp hi
  unfold TurnDiffTracker.track_move
  rw [hi]
  refine ⟨h.paired.move hi hnone, h.names, h.in_use, ?_, h.original, h.one_baseline, ?_, ?_⟩
  all_goals dsimp only
  · intro j
    by_cases hj : j = i
    · subst hj
      rw [← h.placed j, hcur]
      simp
    · rw [Function.update_of_ne hj]
      exact h.placed j
  · intro e he p hp hne
    by_cases hei : e.1 = i
    · rw [hei, Function.update_self, Option.some.injEq] at hp
      subst hp
      -- there was no file at the destination, or this one
      rcases h.rest dest hnone with heq | ⟨-, e', he', hpath⟩
      · rw [← heq, hfree]
      · cases hcontent : e'.2.content with
        | none => rw [← hpath, ← h.original e' he', hcontent]
        | some c =>
          have hcur' := hleft e' he' hpath (by simp [hcontent])
          have hsame : e'.1 = e.1 := hei ▸ h.paired.key_injective hcur' hcur
          have heq : e' = e := List.inj_on_of_nodup_map h.names he' he hsame
          exact absurd (heq ▸ hpath) hne
    · rw [Function.update_of_ne hei] at hp
      exact h.arrived e he p hp hne
  · intro q hq
    have hne : q ≠ dest := by
      rintro rfl
      simp at hq
    rw [Function.update_of_ne hne] at hq ⊢
    by_cases hqp : q = path
    · subst hqp
      rw [Function.update_self]
      -- the path that is left has the baseline of the file, or had no file
      obtain ⟨info, hinfo⟩ := (h.placed i).mp ⟨q, hcur⟩
      by_cases hpath : info.path = q
      · exact .inr ⟨rfl, _, hinfo, hpath⟩
      · exact .inl (h.arrived _ hinfo q hcur hpath).symm
    · rw [Function.update_of_ne hqp] at hq ⊢
      exact h.rest q hq

end step

/-! ## Patches that keep clear of other files -/

/-- The moves of a patch go to paths that are not tracked, have no file and are not in the patch,
each to its own; and no path of the patch is one that a file of the beginning was moved away from,
except to move that file back. -/
structure Clean (t : TurnDiffTracker B) (disk : Disk B) (changes : List (Path × FileChange B)) :
    Prop where
  new_place : ∀ e ∈ changes, ∀ dest ∈ e.2.moved_to, dest = e.1 ∨
    t.external_to_temp_name dest = none ∧ disk dest = none ∧ dest ∉ changes.map Prod.fst
  apart : ∀ e ∈ changes, ∀ e' ∈ changes, ∀ dest ∈ e.2.moved_to, dest ∈ e'.2.moved_to → e.1 = e'.1
  not_left : ∀ e ∈ changes, NotLeft t e.1
  moved_back : ∀ e ∈ changes, ∀ dest ∈ e.2.moved_to, ∀ b ∈ t.baseline_file_info,
    b.2.path = dest → b.2.content.isSome → t.temp_name_to_current_path b.1 = some e.1

section change

variable {orig disk disk' : Disk B} {t : TurnDiffTracker B} {c : Path × FileChange B}
  {cs : List (Path × FileChange B)} {q : Path}

/-- Two changes of a clean patch name no path in common. -/
theorem Clean.no_common_path (hclean : Clean t disk cs) {e e' : Path × FileChange B} (he : e ∈ cs)
    (he' : e' ∈ cs) (hne : e.1 ≠ e'.1) (hq : q = e.1 ∨ e.2.moved_to = some q) :
    q ≠ e'.1 ∧ e'.2.moved_to ≠ some q := by
  constructor
  · rintro rfl
    rcases hq with hq | hq
    · exact hne hq.symm
    · rcases hclean.new_place e he _ hq with h | ⟨-, -, hnot⟩
      · exact hne h.symm
      · exact hnot (List.mem_map_of_mem he')
  · intro hmove'
    rcases hq with rfl | hq
    · rcases hclean.new_place e' he' _ hmove' with h | ⟨-, -, hnot⟩
      · exact hne h
      · exact hnot (List.mem_map_of_mem he)
    · exact hne (hclean.apart e he e' he' q hq hmove')

/-! ### What one change leaves alone -/

theorem ensure_tracked_baselines {path : Path} {e : Nat × BaselineFileInfo B}
    (he : e ∈ (t.ensure_tracked disk path).baseline_file_info) :
    e ∈ t.baseline_file_info ∨ e.2.path = path := by
  unfold TurnDiffTracker.ensure_tracked at he
  split at he
  · exact .inl he
  · rcases List.mem_append.mp he with he | he
    · exact .inl he
    · rw [List.mem_singleton.mp he]
      exact .inr rfl

theorem ensure_tracked_current {path : Path} (h : Tracks orig t disk)
    {e : Nat × BaselineFileInfo B} (he : e ∈ t.baseline_file_info) :
    (t.ensure_tracked disk path).temp_name_to_current_path e.1 =
      t.temp_name_to_current_path e.1 := by
  unfold TurnDiffTracker.ensure_tracked
  split
  · rfl
  · have := h.in_use e he
    exact Function.update_of_ne (by omega) _ _

theorem on_change_ext (hq : q ≠ c.1) (hdest : c.2.moved_to ≠ some q) :
    (t.on_change disk c).external_to_temp_name q = t.external_to_temp_name q := by
  cases hmove : c.2.moved_to with
  | none =>
    rw [on_change_of_none hmove]
    exact ensure_tracked_ext hq
  | some dest =>
    obtain ⟨i, hi⟩ := ensure_tracked_some t disk c.1
    have hne : q ≠ dest := by
      rintro rfl
      exact hdest hmove
    rw [on_change_of_some hmove, track_move_eq hi]
    simp only [Function.update_of_ne hne, Function.update_of_ne hq]
    exact ensure_tracked_ext hq

theorem on_change_baselines {e : Nat × BaselineFileInfo B}
    (he : e ∈ (t.on_change disk c).baseline_file_info) :
    e ∈ t.baseline_file_info ∨ e.2.path = c.1 := by
  cases hmove : c.2.moved_to with
  | none =>
    rw [on_change_of_none hmove] at he
    exact ensure_tracked_baselines he
  | some dest =>
    obtain ⟨i, hi⟩ := ensure_tracked_some t disk c.1
    rw [on_change_of_some hmove, track_move_eq hi] at he
    exact ensure_tracked_baselines he

/-- A file at another path stays there. -/
theorem on_change_current (h : Tracks orig t disk) (hleft : NotLeft t c.1)
    {e : Nat × BaselineFileInfo B} (he : e ∈ t.baseline_file_info)
    (hcur : t.temp_name_to_current_path e.1 = some q) (hq : q ≠ c.1) :
    (t.on_change disk c).temp_name_to_current_path e.1 = some q := by
  have hsame : (t.ensure_tracked disk c.1).temp_name_to_current_path e.1 = some q :=
    (ensure_tracked_current h he).trans hcur
  cases hmove : c.2.moved_to with
  | none => rwa [on_change_of_none hmove]
  | some dest =>
    obtain ⟨i, hi⟩ := ensure_tracked_some t disk c.1
    have htracks := ensure_tracked_tracks h hleft
    have hne : e.1 ≠ i := by
      intro heq
      have hcur' := (htracks.paired c.1 i).mp hi
      rw [← heq, hsame, Option.some.injEq] at hcur'
      exact hq hcur'
    rw [on_change_of_some hmove, track_move_eq hi]
    simpa only [Function.update_of_ne hne] using hsame

/-! ### One change -/

/-- What a change writes at a path. -/
def effect (c : Path × FileChange B) (q : Path) : Option (Option B) :=
  match c with
  | (path, .Add content) => if q = path then some (some content) else none
  | (path, .Delete) => if q = path then some none else none
  | (path, .Update none content) => if q = path then some (some content) else none
  | (path, .Update (some dest) content) =>
    if q = dest then some (some content) else if q = path then some none else none

theorem apply_change_eq : apply_change disk c q = (effect c q).getD (disk q) := by
  obtain ⟨path, change⟩ := c
  cases change with
  | Add content => by_cases hq : q = path <;> simp [apply_change, effect, hq]
  | Delete => by_cases hq : q = path <;> simp [apply_change, effect, hq]
  | Update move_path content =>
    cases move_path with
    | none => by_cases hq : q = path <;> simp [apply_change, effect, hq]
    | some dest =>
      by_cases hd : q = dest
      · simp [apply_change, effect, hd]
      · by_cases hq : q = path
        · subst hq
          simp [apply_change, effect, hd]
        · simp [apply_change, effect, hd, hq]

/-- A change writes nothing at a path that it does not name. -/
theorem effect_none (hq : q ≠ c.1) (hdest : c.2.moved_to ≠ some q) : effect c q = none := by
  obtain ⟨path, change⟩ := c
  have hq' : q ≠ path := hq
  cases change with
  | Add content => simp [effect, hq']
  | Delete => simp [effect, hq']
  | Update move_path content =>
    cases move_path with
    | none => simp [effect, hq']
    | some dest =>
      have hd : q ≠ dest := by
        rintro rfl
        exact hdest rfl
      simp [effect, hd, hq']

/-- A clean change keeps the invariant. -/
theorem on_change_tracks (h : Tracks orig t disk) (hclean : Clean t disk (c :: cs)) :
    Tracks orig (t.on_change disk c) (apply_change disk c) := by
  have hleft : NotLeft t c.1 := hclean.not_left c List.mem_cons_self
  have htracks := ensure_tracked_tracks h hleft
  obtain ⟨i, hi⟩ := ensure_tracked_some t disk c.1
  have hplace := hclean.new_place c List.mem_cons_self
  have hback := hclean.moved_back c List.mem_cons_self
  obtain ⟨path, change⟩ := c
  cases change with
  | Add content => exact htracks.write hi
  | Delete => exact htracks.write hi
  | Update move_path content =>
    cases move_path with
    | none => exact htracks.write hi
    | some dest =>
      change Tracks orig ((t.ensure_tracked disk path).track_move path dest)
        (Function.update (Function.update disk path none) dest (some content))
      rcases hplace dest rfl with rfl | ⟨hnone, hfree, hkey⟩
      · -- a move to its own path is an update
        obtain ⟨hext, hcur⟩ := htracks.paired.move_self hi
        rw [track_move_eq hi, hext, hcur, Function.update_idem]
        exact htracks.write hi
      · have hne : dest ≠ path := by
          rintro rfl
          simp at hkey
        refine htracks.move hi ((ensure_tracked_ext hne).trans hnone) hfree ?_
        intro e he hpath hcontent
        rcases ensure_tracked_baselines he with he | hpath'
        · rw [ensure_tracked_current h he]
          exact hback dest rfl e he hpath hcontent
        · exact absurd (hpath.symm.trans hpath') hne

theorem head_key_ne (hkeys : ((c :: cs).map Prod.fst).Nodup) {e : Path × FileChange B}
    (he : e ∈ cs) : e.1 ≠ c.1 := by
  intro heq
  rw [List.map_cons, List.nodup_cons] at hkeys
  exact hkeys.1 (heq ▸ List.mem_map_of_mem he)

/-- The changes after a clean one are clean. -/
theorem Clean.tail (hclean : Clean t disk (c :: cs)) (h : Tracks orig t disk)
    (hkeys : ((c :: cs).map Prod.fst).Nodup) :
    Clean (t.on_change disk c) (apply_change disk c) cs := by
  have hc : c ∈ c :: cs := List.mem_cons_self
  have hkey : ∀ e ∈ cs, e.1 ≠ c.1 := fun e he => head_key_ne hkeys he
  have hleft : NotLeft t c.1 := hclean.not_left c hc
  refine ⟨?_, ?_, ?_, ?_⟩
  · intro e he dest hmove
    have he' : e ∈ c :: cs := List.mem_cons_of_mem _ he
    obtain ⟨hne, hne'⟩ := hclean.no_common_path he' hc (hkey e he) (.inr hmove)
    rcases hclean.new_place e he' dest hmove with heq | ⟨hnone, hfree, hnot⟩
    · exact .inl heq
    · refine .inr ⟨(on_change_ext hne hne').trans hnone, ?_, ?_⟩
      · rw [apply_change_eq, effect_none hne hne']
        exact hfree
      · intro hmem
        exact hnot (List.mem_cons_of_mem _ hmem)
  · intro e he e' he' dest hmove hmove'
    exact hclean.apart e (List.mem_cons_of_mem _ he) e' (List.mem_cons_of_mem _ he') dest hmove
      hmove'
  · intro e he b hb hpath hcontent
    rcases on_change_baselines hb with hb | hpath'
    · have hcur := hclean.not_left e (List.mem_cons_of_mem _ he) b hb hpath hcontent
      exact on_change_current h hleft hb hcur (hkey e he)
    · exact absurd (hpath.symm.trans hpath') (hkey e he)
  · intro e he dest hmove b hb hpath hcontent
    have he' : e ∈ c :: cs := List.mem_cons_of_mem _ he
    rcases on_change_baselines hb with hb | hpath'
    · have hcur := hclean.moved_back e he' dest hmove b hb hpath hcontent
      exact on_change_current h hleft hb hcur (hkey e he)
    · have hne := (hclean.no_common_path he' hc (hkey e he) (.inr hmove)).1
      exact absurd (hpath.symm.trans hpath') hne

/-! ### A patch -/

/-- Only the content at its own path matters to the baseline of a change. -/
theorem on_change_congr (hdisk : disk c.1 = disk' c.1) :
    t.on_change disk c = t.on_change disk' c := by
  have hensure : t.ensure_tracked disk c.1 = t.ensure_tracked disk' c.1 := by
    unfold TurnDiffTracker.ensure_tracked
    rw [hdisk]
  cases hmove : c.2.moved_to with
  | none => rw [on_change_of_none hmove, on_change_of_none hmove, hensure]
  | some dest => rw [on_change_of_some hmove, on_change_of_some hmove, hensure]

theorem on_patch_begin_congr (hdisk : ∀ e ∈ cs, disk e.1 = disk' e.1) :
    t.on_patch_begin disk cs = t.on_patch_begin disk' cs :=
  List.foldl_ext _ _ _ (fun _ e he => on_change_congr (hdisk e he))

/-- A clean change writes at no path whose baseline is taken later. -/
theorem Clean.baselines_kept (hclean : Clean t disk (c :: cs))
    (hkeys : ((c :: cs).map Prod.fst).Nodup) : ∀ e ∈ cs, disk e.1 = apply_change disk c e.1 := by
  intro e he
  obtain ⟨hne, hdest⟩ := hclean.no_common_path (List.mem_cons_of_mem _ he) List.mem_cons_self
    (head_key_ne hkeys he) (.inl rfl)
  rw [apply_change_eq, effect_none hne hdest]
  rfl

/-- A clean patch lands on no tracked file, in any order of its changes. -/
theorem Clean.keeps_off (hclean : Clean t disk cs) (h : Tracks orig t disk)
    (hkeys : (cs.map Prod.fst).Nodup) {begun : Disk B}
    (hbegun : ∀ e ∈ cs, begun e.1 = disk e.1) : KeepsOff begun t cs := by
  induction cs generalizing t disk with
  | nil => trivial
  | cons c cs ih =>
    constructor
    · rintro ⟨dest, hmove, hne, htracked⟩
      rcases hclean.new_place c List.mem_cons_self dest hmove with heq | ⟨hnone, -⟩
      · exact hne heq
      · simp [hnone] at htracked
    · intro t' ht'
      obtain rfl : _ = t' := by simpa using ht'
      rw [on_change_congr (hbegun c List.mem_cons_self)]
      refine ih (hclean.tail h hkeys) (on_change_tracks h hclean) (List.nodup_cons.mp hkeys).2 ?_
      intro e he
      exact (hbegun e (List.mem_cons_of_mem _ he)).trans (hclean.baselines_kept hkeys e he)

/-- A clean patch keeps the invariant. -/
theorem on_patch_tracks (h : Tracks orig t disk) (hclean : Clean t disk cs)
    (hkeys : (cs.map Prod.fst).Nodup) :
    Tracks orig (t.on_patch_begin disk cs) (cs.foldl apply_change disk) := by
  induction cs generalizing t disk with
  | nil => exact h
  | cons c cs ih =>
    have hnext := ih (on_change_tracks h hclean) (hclean.tail h hkeys)
      (List.nodup_cons.mp hkeys).2
    rw [← on_patch_begin_congr (hclean.baselines_kept hkeys)] at hnext
    exact hnext

/-- Clean changes may be applied in any order. -/
theorem Clean.apply_perm {applied : List (Path × FileChange B)} (hclean : Clean t disk cs)
    (hkeys : (cs.map Prod.fst).Nodup) (hperm : applied.Perm cs) (start : Disk B) :
    applied.foldl apply_change start = cs.foldl apply_change start := by
  refine hperm.foldl_eq' ?_ start
  intro c hc c' hc' disk
  by_cases heq : c = c'
  · rw [heq]
  · have hmem := hperm.mem_iff.mp hc
    have hmem' := hperm.mem_iff.mp hc'
    have hne : c.1 ≠ c'.1 := fun h => heq (List.inj_on_of_nodup_map hkeys hmem hmem' h)
    -- no path is written by both
    have hapart : ∀ q, effect c q = none ∨ effect c' q = none := by
      intro q
      by_cases hq : q = c.1 ∨ c.2.moved_to = some q
      · obtain ⟨hkey, hdest⟩ := hclean.no_common_path hmem hmem' hne hq
        exact .inr (effect_none hkey hdest)
      · rw [not_or] at hq
        exact .inl (effect_none hq.1 hq.2)
    funext q
    simp only [apply_change_eq]
    rcases hapart q with h | h
    · simp [h]
    · simp [h]

end change

end tracker

end Ecode.turn_diff_tracker
