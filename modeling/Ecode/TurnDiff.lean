-- The file diffs of a turn: which paths are on a side of the diffs that
-- `get_unified_diff` reports, over every run of patches.
import Ecode.DiffTracker

open Ecode.runs Ecode.two_way_maps

namespace Ecode.turn_diff_tracker

section tracker

variable {B : Type}

/-! ## The diffs of a path -/

section diffs

variable [DecidableEq B] {orig : Disk B} {s : Turn B} {q : Path}

/-- How many file diffs have the path on a side. -/
def sides (relative_to_git_root_str : Path → Text) (s : Turn B) (q : Path) : Nat :=
  (get_unified_diff relative_to_git_root_str s.disk s.tracker).countP (FileDiff.has_side q)

/-- The path is the old or the new one of a file that was moved and has the content it began
with. -/
def OnlyRenamed (s : Turn B) (q : Path) : Prop :=
  ∃ e ∈ s.tracker.baseline_file_info, ∃ p, s.tracker.temp_name_to_current_path e.1 = some p ∧
    e.2.path ≠ p ∧ e.2.content.isSome ∧ e.2.content = s.disk p ∧ (e.2.path = q ∨ p = q)

/-- The internal file, now at `p`, has the path on a side where there is a content. -/
def OnSide (s : Turn B) (q : Path) (e : Nat × BaselineFileInfo B) (p : Path) : Prop :=
  e.2.content.isSome ∧ e.2.path = q ∨ (s.disk p).isSome ∧ p = q

/-- Whether the file diff of an internal file has the path on a side. -/
def shows (s : Turn B) (q : Path) (internal : Nat) : Bool :=
  ((get_file_diff s.disk s.tracker internal).map (FileDiff.has_side q)).getD false

theorem sides_eq_countP (relative_to_git_root_str : Path → Text) :
    sides relative_to_git_root_str s q =
      (s.tracker.baseline_file_info.map Prod.fst).countP (shows s q) := by
  unfold sides get_unified_diff
  rw [List.countP_filterMap]
  exact (List.perm_insertionSort _ _).countP_eq _

omit [DecidableEq B] in
theorem Tracks.baseline_eq {t : TurnDiffTracker B} {disk : Disk B} (h : Tracks orig t disk)
    {e : Nat × BaselineFileInfo B} (he : e ∈ t.baseline_file_info) :
    t.baseline e.1 = some e.2 := by
  unfold TurnDiffTracker.baseline
  cases hfind : t.baseline_file_info.find? (fun x => x.1 == e.1) with
  | none =>
    have := List.find?_eq_none.mp hfind e he
    simp at this
  | some e' =>
    have hname : e'.1 = e.1 := by simpa using List.find?_some hfind
    rw [List.inj_on_of_nodup_map h.names (List.mem_of_find?_eq_some hfind) he hname]
    rfl

/-- A file diff shows a path just where the contents differ and it is on a side. -/
theorem Tracks.shows_iff (h : Tracks orig s.tracker s.disk) {e : Nat × BaselineFileInfo B}
    (he : e ∈ s.tracker.baseline_file_info) {p : Path}
    (hp : s.tracker.temp_name_to_current_path e.1 = some p) :
    shows s q e.1 = true ↔ e.2.content ≠ s.disk p ∧ OnSide s q e p := by
  unfold shows get_file_diff TurnDiffTracker.get_path_for_internal
  rw [h.baseline_eq he, hp]
  simp only [Option.some_or, Option.bind_some, Option.map_some, Option.getD_some]
  by_cases heq : e.2.content = s.disk p
  · simp [heq]
  · rw [if_neg heq]
    unfold OnSide FileDiff.has_side
    simp only [ne_eq, heq, not_false_eq_true, true_and]
    cases e.2.content <;> cases s.disk p <;> simp

omit [DecidableEq B] in
/-- An internal file is on the left side of a path with its baseline there. -/
theorem Tracks.left_unique (h : Tracks orig s.tracker s.disk) {e e' : Nat × BaselineFileInfo B}
    (he : e ∈ s.tracker.baseline_file_info) (he' : e' ∈ s.tracker.baseline_file_info)
    (hpath : e.2.path = q) (hcontent : e'.2.content.isSome) (hpath' : e'.2.path = q) : e' = e :=
  h.one_baseline e' he' e he (hpath'.trans hpath.symm) hcontent

omit [DecidableEq B] in
theorem Tracks.right_unique (h : Tracks orig s.tracker s.disk) {e e' : Nat × BaselineFileInfo B}
    (he : e ∈ s.tracker.baseline_file_info) (he' : e' ∈ s.tracker.baseline_file_info)
    (hcur : s.tracker.temp_name_to_current_path e.1 = some q)
    (hcur' : s.tracker.temp_name_to_current_path e'.1 = some q) : e' = e :=
  List.inj_on_of_nodup_map h.names he' he (h.paired.key_injective hcur' hcur)

omit [DecidableEq B] in
/-- A path that differs from the beginning is on a side of one internal file, which was moved if
its contents do not differ. -/
theorem Tracks.owner (h : Tracks orig s.tracker s.disk) (hdiff : orig q ≠ s.disk q) :
    ∃ e ∈ s.tracker.baseline_file_info, ∃ p,
      s.tracker.temp_name_to_current_path e.1 = some p ∧ OnSide s q e p ∧
      (e.2.content = s.disk p → e.2.path ≠ p ∧ e.2.content.isSome) ∧
      ∀ e' ∈ s.tracker.baseline_file_info, ∀ p',
        s.tracker.temp_name_to_current_path e'.1 = some p' → OnSide s q e' p' → e' = e := by
  cases hext : s.tracker.external_to_temp_name q with
  | some i =>
    have hcur := (h.paired q i).mp hext
    obtain ⟨info, he⟩ := (h.placed i).mp ⟨q, hcur⟩
    have horig : info.content = orig info.path := h.original _ he
    by_cases hpath : info.path = q
    · -- the file is at its own path, and its content differs
      rw [hpath] at horig
      have hne : info.content ≠ s.disk q := by rwa [horig]
      refine ⟨(i, info), he, q, hcur, ?_, fun heq => absurd heq hne, ?_⟩
      · unfold OnSide
        cases hcontent : info.content with
        | some c => exact .inl ⟨by simp, hpath⟩
        | none =>
          rw [hcontent] at hne
          exact .inr ⟨Option.isSome_iff_ne_none.mpr (Ne.symm hne), rfl⟩
      · rintro e' he' p' hp' (⟨hcontent, hpath'⟩ | ⟨-, rfl⟩)
        · exact h.left_unique he he' hpath hcontent hpath'
        · exact h.right_unique he he' hcur hp'
    · -- the file was moved to the path, where there was none
      have hnone : orig q = none := h.arrived _ he q hcur hpath
      rw [hnone] at hdiff
      have hsome : (s.disk q).isSome := Option.isSome_iff_ne_none.mpr (Ne.symm hdiff)
      refine ⟨(i, info), he, q, hcur, .inr ⟨hsome, rfl⟩, fun heq => ⟨hpath, ?_⟩, ?_⟩
      · rwa [heq]
      · rintro e' he' p' hp' (⟨hcontent, hpath'⟩ | ⟨-, rfl⟩)
        · rw [h.original e' he', hpath', hnone] at hcontent
          simp at hcontent
        · exact h.right_unique he he' hcur hp'
  | none =>
    -- the path was left by a move
    rcases h.rest q hext with heq | ⟨hdisk, e, he, hpath⟩
    · exact absurd heq.symm hdiff
    · obtain ⟨p, hcur⟩ := (h.placed e.1).mpr ⟨e.2, he⟩
      have hcontent : e.2.content.isSome := by
        rw [h.original e he, hpath]
        exact Option.isSome_iff_ne_none.mpr (hdisk ▸ hdiff)
      have hne : p ≠ q := h.paired.ne_of_none hext hcur
      refine ⟨e, he, p, hcur, .inl ⟨hcontent, hpath⟩, fun _ => ⟨?_, hcontent⟩, ?_⟩
      · rw [hpath]
        exact hne.symm
      · rintro e' he' p' hp' (⟨hcontent', hpath'⟩ | ⟨-, rfl⟩)
        · exact h.left_unique he he' hpath hcontent' hpath'
        · exact absurd rfl (h.paired.ne_of_none hext hp')

/-- A path that differs from the beginning is in one file diff, and in none when its file was only
renamed. -/
theorem Tracks.sides_eq (h : Tracks orig s.tracker s.disk) (hdiff : orig q ≠ s.disk q)
    (relative_to_git_root_str : Path → Text) :
    OnlyRenamed s q ∧ sides relative_to_git_root_str s q = 0 ∨
      ¬ OnlyRenamed s q ∧ sides relative_to_git_root_str s q = 1 := by
  obtain ⟨e, he, p, hcur, hside, hmoved, honly⟩ := h.owner hdiff
  have hshows : ∀ i ∈ s.tracker.baseline_file_info.map Prod.fst,
      shows s q i = true ↔ i = e.1 ∧ e.2.content ≠ s.disk p := by
    intro i hi
    obtain ⟨e', he', rfl⟩ := List.mem_map.mp hi
    obtain ⟨p', hcur'⟩ := (h.placed e'.1).mpr ⟨e'.2, he'⟩
    rw [h.shows_iff he' hcur']
    constructor
    · rintro ⟨hne, hside'⟩
      obtain rfl := honly e' he' p' hcur' hside'
      obtain rfl : p' = p := by simpa [hcur'] using hcur
      exact ⟨rfl, hne⟩
    · rintro ⟨hname, hne⟩
      obtain rfl : e' = e := List.inj_on_of_nodup_map h.names he' he hname
      obtain rfl : p' = p := by simpa [hcur'] using hcur
      exact ⟨hne, hside⟩
  rw [sides_eq_countP]
  by_cases heq : e.2.content = s.disk p
  · obtain ⟨hpath, hcontent⟩ := hmoved heq
    refine .inl ⟨⟨e, he, p, hcur, hpath, hcontent, heq, ?_⟩, ?_⟩
    · rcases hside with ⟨-, h⟩ | ⟨-, h⟩
      · exact .inl h
      · exact .inr h
    · rw [List.countP_eq_zero]
      intro i hi hs
      exact ((hshows i hi).mp hs).2 heq
  · refine .inr ⟨?_, ?_⟩
    · rintro ⟨e', he', p', hcur', -, hcontent, heq', hq⟩
      have hside' : OnSide s q e' p' := by
        rcases hq with hq | hq
        · exact .inl ⟨hcontent, hq⟩
        · exact .inr ⟨heq' ▸ hcontent, hq⟩
      obtain rfl := honly e' he' p' hcur' hside'
      obtain rfl : p' = p := by simpa [hcur'] using hcur
      exact heq heq'
    · rw [List.countP_congr (q := fun i => i == e.1)]
      · exact List.count_eq_one_of_mem h.names (List.mem_map_of_mem he)
      · intro i hi
        rw [hshows i hi]
        simp [heq]

/-- The tracker has a one-to-one view of the files, and every path that differs from the beginning
is on a side of one file diff. -/
structure OneView (relative_to_git_root_str : Path → Text) (orig : Disk B) (s : Turn B) :
    Prop where
  one_to_one : OneToOne s.tracker
  one_diff : ∀ q, orig q ≠ s.disk q → sides relative_to_git_root_str s q = 1

/-- For all files and every run of patches, in every order of their changes: where no move lands on
a tracked file the view is one-to-one, and where the patches are clean every path that differs from
the beginning is on a side of one file diff, or of none when its file was only renamed. -/
theorem one_to_one_and_one_diff_each (relative_to_git_root_str : Path → Text) (orig : Disk B)
    (s : Turn B) :
    (Reached Turn.step (Turn.start orig) (fun s p => KeepsOff s.disk s.tracker p.changes) s →
      OneToOne s.tracker) ∧
    (Reached Turn.step (Turn.start orig) (fun s p => Clean s.tracker s.disk p.changes) s →
      ∀ q, orig q ≠ s.disk q →
        OnlyRenamed s q ∧ sides relative_to_git_root_str s q = 0 ∨
          ¬ OnlyRenamed s q ∧ sides relative_to_git_root_str s q = 1) := by
  constructor
  · intro h
    apply Named.one_to_one
    refine Reached.invariant (I := fun s => Named s.tracker) named_new ?_ h
    intro s p s' hnamed hoff hstep
    obtain rfl : _ = s' := by simpa [Turn.step] using hstep
    exact hnamed.on_patch_begin hoff
  · intro h q hq
    have htracks : Tracks orig s.tracker s.disk := by
      refine Reached.invariant (I := fun s => Tracks orig s.tracker s.disk) tracks_start ?_ h
      intro s p s' htracks hclean hstep
      obtain rfl : _ = s' := by simpa [Turn.step] using hstep
      dsimp only
      rw [hclean.apply_perm p.keys p.all_applied]
      exact on_patch_tracks htracks hclean p.keys
    exact htracks.sides_eq hq relative_to_git_root_str

instance (t : TurnDiffTracker B) (disk : Disk B) (changes : List (Path × FileChange B)) :
    Decidable (Clean t disk changes) :=
  decidable_of_iff
    ((∀ e ∈ changes, ∀ dest ∈ e.2.moved_to, dest = e.1 ∨
        t.external_to_temp_name dest = none ∧ disk dest = none ∧ dest ∉ changes.map Prod.fst) ∧
      (∀ e ∈ changes, ∀ e' ∈ changes, ∀ dest ∈ e.2.moved_to, dest ∈ e'.2.moved_to → e.1 = e'.1) ∧
      (∀ e ∈ changes, ∀ b ∈ t.baseline_file_info, b.2.path = e.1 → b.2.content.isSome →
        t.temp_name_to_current_path b.1 = some e.1) ∧
      ∀ e ∈ changes, ∀ dest ∈ e.2.moved_to, ∀ b ∈ t.baseline_file_info,
        b.2.path = dest → b.2.content.isSome → t.temp_name_to_current_path b.1 = some e.1)
    ⟨fun h => ⟨h.1, h.2.1, h.2.2.1, h.2.2.2⟩,
      fun h => ⟨h.new_place, h.apart, h.not_left, h.moved_back⟩⟩

end diffs

end tracker

/-! ## Runs -/

/-- A file in the root directory. -/
def root_file (name : Char) : Path := [.RootDir, .Normal [name]]

/-- The files with these names and contents. -/
def files (l : List (Char × Text)) : Disk Text := fun p =>
  (l.find? (fun e => root_file e.1 == p)).map Prod.snd

/-- A patch of one change. -/
def one_change (name : Char) (change : FileChange Text) : Patch Text where
  changes := [(root_file name, change)]
  keys := by simp
  applied := [(root_file name, change)]
  all_applied := List.Perm.refl _

/-- A patch that moves `a` to `b` with a new content and adds `c`, its changes applied in the other
order. -/
def move_and_add : Patch Text where
  changes :=
    [(root_file 'a', .Update (some (root_file 'b')) ['y']), (root_file 'c', .Add ['z'])]
  keys := by decide
  applied :=
    [(root_file 'c', .Add ['z']), (root_file 'a', .Update (some (root_file 'b')) ['y'])]
  all_applied := List.Perm.swap _ _ _

/-- A moved and an added file: the view is one-to-one, and the path that was left, which differs,
is in one file diff. -/
theorem move_and_add_are_shown :
    ∃ s, Turn.step (Turn.start (files [('a', ['x'])])) move_and_add = some s ∧
      OneToOne s.tracker ∧ sides Path.display s (root_file 'a') = 1 := by
  have hclean : Clean TurnDiffTracker.new (files [('a', ['x'])]) move_and_add.changes := by
    decide +kernel
  have hoff : KeepsOff (files [('a', ['x'])]) TurnDiffTracker.new move_and_add.changes :=
    hclean.keeps_off tracks_start move_and_add.keys (fun _ _ => rfl)
  obtain ⟨s, hs⟩ : ∃ s, Turn.step (Turn.start (files [('a', ['x'])])) move_and_add = some s :=
    ⟨_, rfl⟩
  obtain ⟨hview, hdiffs⟩ := one_to_one_and_one_diff_each Path.display (files [('a', ['x'])]) s
  have hcontent : (Turn.step (Turn.start (files [('a', ['x'])])) move_and_add).map
      (fun s => (s.disk (root_file 'a'), sides Path.display s (root_file 'a'))) =
        some (none, 1) := by decide +kernel
  rw [hs, Option.map_some, Option.some.injEq, Prod.mk.injEq] at hcontent
  have hdiff : files [('a', ['x'])] (root_file 'a') ≠ s.disk (root_file 'a') := by
    rw [hcontent.1]
    decide
  refine ⟨s, hs, hview (.step .start hoff hs), ?_⟩
  rcases hdiffs (.step .start hclean hs) (root_file 'a') hdiff with ⟨-, hzero⟩ | ⟨-, hone⟩
  · exact absurd (hzero.symm.trans hcontent.2) (by decide)
  · exact hone

/-- A list of patches that was run, and what was seen after it, give a reached state that
shows it. -/
theorem reached_after {B : Type} {orig : Disk Text} {patches : List (Patch Text)}
    {view : Turn Text → B} {b : B}
    (h : (patches.foldlM Turn.step (Turn.start orig)).map view = some b) :
    ∃ s, Reached Turn.step (Turn.start orig) (fun _ _ => True) s ∧ view s = b :=
  Reached.of_run (by simpa using h)

/-- A path that differs and is not in one file diff. -/
theorem not_one_view {orig : Disk Text} {s : Turn Text} {q : Path} {n : Nat}
    (hdiff : orig q ≠ s.disk q) (hsides : sides Path.display s q = n) (hn : n ≠ 1) :
    ¬ OneView Path.display orig s := by
  intro hview
  exact hn (hsides.symm.trans (hview.one_diff q hdiff))

/-- Four runs without a one-to-one view of the files: a file that is only renamed is in no diff,
as intended; a move onto a tracked file leaves two internal files at one path; a path that a file
was moved away from and that is added again is in two diffs; and a file that a move overwrote is in
none once the moved file goes back. -/
theorem moves_break_the_view :
    (∃ s, Reached Turn.step (Turn.start (files [('a', ['x'])])) (fun _ _ => True) s ∧
      sides Path.display s (root_file 'a') = 0 ∧
      ¬ OneView Path.display (files [('a', ['x'])]) s) ∧
    (∃ s, Reached Turn.step (Turn.start (files [('a', ['x']), ('b', ['y'])]))
      (fun _ _ => True) s ∧ ¬ OneToOne s.tracker) ∧
    (∃ s, Reached Turn.step (Turn.start (files [('a', ['x'])])) (fun _ _ => True) s ∧
      sides Path.display s (root_file 'a') = 2 ∧
      ¬ OneView Path.display (files [('a', ['x'])]) s) ∧
    (∃ s, Reached Turn.step (Turn.start (files [('a', ['x']), ('b', ['y'])]))
      (fun _ _ => True) s ∧ sides Path.display s (root_file 'b') = 0 ∧
      ¬ OneView Path.display (files [('a', ['x']), ('b', ['y'])]) s) := by
  refine ⟨?_, ?_, ?_, ?_⟩
  · have hrun : ([one_change 'a' (.Update (some (root_file 'b')) ['x'])].foldlM Turn.step
        (Turn.start (files [('a', ['x'])]))).map
          (fun s => (s.disk (root_file 'a'), sides Path.display s (root_file 'a'))) =
          some (none, 0) := by decide +kernel
    obtain ⟨s, hreached, hview⟩ := reached_after hrun
    obtain ⟨hdisk, hsides⟩ := Prod.mk.inj hview
    refine ⟨s, hreached, hsides, not_one_view ?_ hsides (by decide)⟩
    rw [hdisk]
    decide
  · have hrun : ([one_change 'b' (.Update none ['z']),
        one_change 'a' (.Update (some (root_file 'b')) ['x'])].foldlM Turn.step
        (Turn.start (files [('a', ['x']), ('b', ['y'])]))).map
          (fun s => (s.tracker.temp_name_to_current_path 0,
            s.tracker.temp_name_to_current_path 1)) =
          some (some (root_file 'b'), some (root_file 'b')) := by decide +kernel
    obtain ⟨s, hreached, hview⟩ := reached_after hrun
    obtain ⟨hfirst, hsecond⟩ := Prod.mk.inj hview
    refine ⟨s, hreached, fun h => ?_⟩
    exact absurd (h.distinct 0 1 _ hfirst hsecond) (by decide)
  · have hrun : ([one_change 'a' (.Update (some (root_file 'b')) ['y']),
        one_change 'a' (.Add ['z'])].foldlM Turn.step
        (Turn.start (files [('a', ['x'])]))).map
          (fun s => (s.disk (root_file 'a'), sides Path.display s (root_file 'a'))) =
          some (some ['z'], 2) := by decide +kernel
    obtain ⟨s, hreached, hview⟩ := reached_after hrun
    obtain ⟨hdisk, hsides⟩ := Prod.mk.inj hview
    refine ⟨s, hreached, hsides, not_one_view ?_ hsides (by decide)⟩
    rw [hdisk]
    decide
  · have hrun : ([one_change 'a' (.Update (some (root_file 'b')) ['z']),
        one_change 'b' (.Update (some (root_file 'a')) ['w'])].foldlM Turn.step
        (Turn.start (files [('a', ['x']), ('b', ['y'])]))).map
          (fun s => (s.disk (root_file 'b'), sides Path.display s (root_file 'b'))) =
          some (none, 0) := by decide +kernel
    obtain ⟨s, hreached, hview⟩ := reached_after hrun
    obtain ⟨hdisk, hsides⟩ := Prod.mk.inj hview
    refine ⟨s, hreached, hsides, not_one_view ?_ hsides (by decide)⟩
    rw [hdisk]
    decide

end Ecode.turn_diff_tracker
