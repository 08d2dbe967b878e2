-- Which file a line of `git apply` is about: the classes of the files, and when they are those of
-- the lines that name them (git-apply/src/lib.rs).
import Ecode.GitApplyOutput
import Ecode.Runs

open Ecode.runs

namespace Ecode.git_apply

/-! ## Classes -/

inductive FileClass where
  | Applied
  | Skipped
  | Conflicted
  deriving DecidableEq, Repr

/-- The class that the output gives to a path. -/
def Output.class_of (output : Output) (p : Text) : Option FileClass :=
  if p ∈ output.conflicted_paths then some .Conflicted
  else if p ∈ output.applied_paths then some .Applied
  else if p ∈ output.skipped_paths then some .Skipped
  else none

/-- The same, from the sets. -/
def State.class_of (s : State) (p : Text) : Option FileClass :=
  if p ∈ s.conflicted then some .Conflicted
  else if p ∈ s.applied then some .Applied
  else if p ∈ s.skipped then some .Skipped
  else none

theorem class_of_finish (s : State) (p : Text) : s.finish.class_of p = s.class_of p := by
  unfold Output.class_of State.class_of State.finish
  simp only [Finset.mem_sort, Finset.mem_sdiff]
  by_cases hc : p ∈ s.conflicted
  · simp [hc]
  · by_cases ha : p ∈ s.applied
    · simp [hc, ha]
    · simp [hc, ha]

/-- The three lists of the output have no path in common. -/
theorem finish_disjoint (s : State) :
    List.Disjoint s.finish.applied_paths s.finish.skipped_paths ∧
      List.Disjoint s.finish.applied_paths s.finish.conflicted_paths ∧
      List.Disjoint s.finish.skipped_paths s.finish.conflicted_paths := by
  unfold State.finish List.Disjoint
  simp only [Finset.mem_sort, Finset.mem_sdiff]
  refine ⟨?_, ?_, ?_⟩
  · rintro p ha ⟨-, hnot⟩
    exact hnot ha
  · rintro p ⟨-, hnot⟩ hc
    exact hnot hc
  · rintro p ⟨⟨-, hnot⟩, -⟩ hc
    exact hnot hc

/-! ## The lines of one path -/

/-- The path that a line names. -/
def Line.names : Line → Option Text
  | .path _ raw => if unquoted raw = [] then none else some (unquoted raw)
  | .three_way_failed | .other => none

/-- What a line says about its path, of which the class is known. -/
def class_step (c : Option FileClass) : Line → Option FileClass
  | .path .Applied _ => some .Applied
  | .path .Conflicted _ => some .Conflicted
  | .path .Skipped _ => some .Skipped
  | .path .Hint _ => c.or (some .Skipped)
  | .path .Checking _ | .three_way_failed | .other => c

/-! ## Sets -/

theorem mem_add {set : PathSet} {raw p : Text} (h : unquoted raw ≠ []) :
    p ∈ add set raw ↔ p = unquoted raw ∨ p ∈ set := by
  rw [add, if_neg h, Finset.mem_insert]

theorem next_back_mem {set : PathSet} {p : Text} (h : next_back set = some p) : p ∈ set := by
  unfold next_back at h
  split_ifs at h with hne
  obtain rfl := Option.some.inj h
  exact set.max'_mem hne

theorem next_back_none {set : PathSet} (h : next_back set = none) : set = ∅ := by
  unfold next_back at h
  split_ifs at h with hne
  exact Finset.not_nonempty_iff_eq_empty.mp hne

/-- No line adds an empty path. -/
structure State.Named (s : State) : Prop where
  applied : [] ∉ s.applied
  skipped : [] ∉ s.skipped
  conflicted : [] ∉ s.conflicted

theorem add_named {set : PathSet} (h : [] ∉ set) (raw : Text) : [] ∉ add set raw := by
  unfold add
  split_ifs with hraw
  · exact h
  · rw [Finset.mem_insert, not_or]
    exact ⟨Ne.symm hraw, h⟩

theorem erase_named {set : PathSet} (h : [] ∉ set) (p : Text) : [] ∉ set.erase p :=
  fun hmem => h (Finset.mem_of_mem_erase hmem)

theorem step_named {s : State} (h : s.Named) (line : Line) : (s.step line).Named := by
  obtain ⟨ha, hs, hc⟩ := h
  cases line with
  | path kind raw =>
    cases kind with
    | Checking => exact ⟨ha, hs, hc⟩
    | Applied =>
      unfold State.step State.record_applied
      dsimp only
      split
      · exact ⟨add_named ha raw, erase_named hs _, erase_named hc _⟩
      · exact ⟨add_named ha raw, hs, hc⟩
    | Conflicted =>
      unfold State.step State.record_conflicted
      dsimp only
      split
      · exact ⟨erase_named ha _, erase_named hs _, add_named hc raw⟩
      · exact ⟨ha, hs, add_named hc raw⟩
    | Hint => exact ⟨ha, add_named hs raw, hc⟩
    | Skipped =>
      unfold State.step State.record_skipped
      dsimp only
      split
      · exact ⟨erase_named ha _, add_named hs raw, erase_named hc _⟩
      · exact ⟨ha, add_named hs raw, hc⟩
  | three_way_failed =>
    unfold State.step
    dsimp only
    split
    · exact ⟨erase_named ha _, add_named hs _, erase_named hc _⟩
    · exact ⟨ha, hs, hc⟩
  | other => exact ⟨ha, hs, hc⟩

theorem parse_named (captures : Text → Text → Option Captures) (lines : List Text) :
    (parse_lines captures lines).Named := by
  induction lines using List.reverseRecOn with
  | nil => exact ⟨Finset.notMem_empty _, Finset.notMem_empty _, Finset.notMem_empty _⟩
  | append_singleton lines line ih =>
    unfold parse_lines at ih ⊢
    rw [List.foldl_append]
    exact step_named ih _

/-! ## One line -/

/-- A line leaves the classes of the other paths alone. The greatest path of a set may be another
one than the path that was added, and is then taken out of the other sets in its place. -/
def Right (s : State) : Line → Prop
  | .path .Applied raw => ∀ p, next_back (add s.applied raw) = some p →
      p = unquoted raw ∨ unquoted raw ∉ s.conflicted ∧ p ∉ s.conflicted
  | .path .Skipped raw => ∀ p, next_back (add s.skipped raw) = some p →
      p = unquoted raw ∨ ∀ q ∈ [unquoted raw, p], q ∉ s.applied ∧ q ∉ s.conflicted
  | _ => True

/-- A line changes the class of the path that it names as it says, and no other class. -/
structure Attributes (s : State) (line : Line) : Prop where
  named : ∀ p, line.names = some p →
    (s.step line).class_of p = class_step (s.class_of p) line
  other : ∀ p, line.names ≠ some p → (s.step line).class_of p = s.class_of p

section line

variable {s : State} {raw p : Text} {kind : Kind}

theorem names_path (kind : Kind) (raw : Text) :
    (Line.path kind raw).names = if unquoted raw = [] then none else some (unquoted raw) := rfl

theorem names_some (h : (Line.path kind raw).names = some p) :
    unquoted raw ≠ [] ∧ p = unquoted raw := by
  rw [names_path] at h
  split_ifs at h with hraw
  exact ⟨hraw, (Option.some.inj h).symm⟩

theorem names_unquoted (h : unquoted raw ≠ []) :
    (Line.path kind raw).names = some (unquoted raw) := if_neg h

theorem mem_add_other {set : PathSet} (h : (Line.path kind raw).names ≠ some p) :
    p ∈ add set raw ↔ p ∈ set := by
  unfold add
  split_ifs with hraw
  · exact Iff.rfl
  · rw [Finset.mem_insert]
    apply or_iff_right
    rintro rfl
    exact h (names_unquoted hraw)

theorem mem_add_self {set : PathSet} (h : (Line.path kind raw).names = some p) :
    p ∈ add set raw := by
  obtain ⟨hraw, rfl⟩ := names_some h
  exact (mem_add hraw).mpr (.inl rfl)

/-- A path without a name is in no set. -/
theorem names_of_mem {set : PathSet} (hnamed : [] ∉ set) (h : unquoted raw ∈ set) :
    (Line.path kind raw).names = some (unquoted raw) := by
  apply names_unquoted
  intro hraw
  exact hnamed (hraw ▸ h)

/-- A line that leaves its set empty names no path. -/
theorem names_none {set : PathSet} (h : next_back (add set raw) = none) :
    (Line.path kind raw).names ≠ some p := by
  intro hnames
  have hmem : p ∈ add set raw := mem_add_self hnames
  rw [next_back_none h] at hmem
  exact Finset.notMem_empty p hmem

/-- The greatest path of a set, where the line does not name it: it was there before, and is not
what the line has. -/
theorem next_back_other {set : PathSet} (hnamed : [] ∉ set)
    (hback : next_back (add set raw) = some p) (hnames : (Line.path kind raw).names ≠ some p) :
    p ∈ set ∧ p ≠ unquoted raw := by
  have hmem := (mem_add_other hnames).mp (next_back_mem hback)
  refine ⟨hmem, ?_⟩
  rintro rfl
  exact hnames (names_of_mem hnamed hmem)

theorem step_applied {m : Text} (h : next_back (add s.applied raw) = some m) :
    s.step (.path .Applied raw) =
      ⟨add s.applied raw, s.skipped.erase m, s.conflicted.erase m, some m⟩ := by
  unfold State.step State.record_applied
  dsimp only
  rw [h]

theorem step_applied_none (h : next_back (add s.applied raw) = none) :
    s.step (.path .Applied raw) = { s with applied := add s.applied raw } := by
  unfold State.step State.record_applied
  dsimp only
  rw [h]

theorem step_conflicted {m : Text} (h : next_back (add s.conflicted raw) = some m) :
    s.step (.path .Conflicted raw) =
      ⟨s.applied.erase m, s.skipped.erase m, add s.conflicted raw, some m⟩ := by
  unfold State.step State.record_conflicted
  dsimp only
  rw [h]

theorem step_conflicted_none (h : next_back (add s.conflicted raw) = none) :
    s.step (.path .Conflicted raw) = { s with conflicted := add s.conflicted raw } := by
  unfold State.step State.record_conflicted
  dsimp only
  rw [h]

theorem step_skipped {m : Text} (h : next_back (add s.skipped raw) = some m) :
    s.step (.path .Skipped raw) =
      ⟨s.applied.erase m, add s.skipped raw, s.conflicted.erase m, some m⟩ := by
  unfold State.step State.record_skipped
  dsimp only
  rw [h]

theorem step_skipped_none (h : next_back (add s.skipped raw) = none) :
    s.step (.path .Skipped raw) = { s with skipped := add s.skipped raw } := by
  unfold State.step State.record_skipped
  dsimp only
  rw [h]

theorem attributes_applied (h : s.Named) :
    Attributes s (.path .Applied raw) ↔ Right s (.path .Applied raw) := by
  rcases hback : next_back (add s.applied raw) with _ | m
  · refine iff_of_true ⟨fun p hp => absurd hp (names_none hback), fun p hp => ?_⟩ ?_
    · rw [step_applied_none hback]
      simp [State.class_of, mem_add_other hp]
    · simp [Right, hback]
  · have hmem := next_back_mem hback
    have hright : Right s (.path .Applied raw) ↔
        m = unquoted raw ∨ unquoted raw ∉ s.conflicted ∧ m ∉ s.conflicted := by
      simp [Right, hback]
    rw [hright]
    constructor
    · rintro ⟨hself, hother⟩
      rw [step_applied hback] at hself hother
      refine or_iff_not_imp_left.mpr fun hm => ⟨fun hc => ?_, fun hc => ?_⟩
      · have hclass := hself _ (names_of_mem h.conflicted hc)
        simp [State.class_of, class_step, hc, Ne.symm hm] at hclass
      · have hclass := hother m fun hnames => hm (names_some hnames).2
        simp [State.class_of, hc, hmem] at hclass
    · intro hright
      refine ⟨fun p hnames => ?_, fun p hnames => ?_⟩
      · have hp : p ∈ add s.applied raw := mem_add_self hnames
        obtain ⟨-, rfl⟩ := names_some hnames
        rw [step_applied hback]
        rcases hright with rfl | ⟨hn, -⟩
        · simp [State.class_of, class_step, hp]
        · simp [State.class_of, class_step, hp, hn]
      · rw [step_applied hback]
        by_cases hp : p = m
        · subst hp
          obtain ⟨hmem', hne⟩ := next_back_other h.applied hback hnames
          have hc := (hright.resolve_left hne).2
          simp [State.class_of, hmem, hmem', hc]
        · simp [State.class_of, hp, mem_add_other hnames]

theorem attributes_conflicted :
    Attributes s (.path .Conflicted raw) := by
  rcases hback : next_back (add s.conflicted raw) with _ | m
  · refine ⟨fun p hp => absurd hp (names_none hback), fun p hp => ?_⟩
    rw [step_conflicted_none hback]
    simp [State.class_of, mem_add_other hp]
  · refine ⟨fun p hnames => ?_, fun p hnames => ?_⟩
    · rw [step_conflicted hback]
      simp [State.class_of, class_step, mem_add_self hnames]
    · rw [step_conflicted hback]
      by_cases hp : p = m
      · subst hp
        have hmem := next_back_mem hback
        have hmem' := (mem_add_other hnames).mp hmem
        simp [State.class_of, hmem, hmem']
      · simp [State.class_of, hp, mem_add_other hnames]

theorem attributes_skipped (h : s.Named) :
    Attributes s (.path .Skipped raw) ↔ Right s (.path .Skipped raw) := by
  rcases hback : next_back (add s.skipped raw) with _ | m
  · refine iff_of_true ⟨fun p hp => absurd hp (names_none hback), fun p hp => ?_⟩ ?_
    · rw [step_skipped_none hback]
      simp [State.class_of, mem_add_other hp]
    · simp [Right, hback]
  · have hmem := next_back_mem hback
    have hright : Right s (.path .Skipped raw) ↔ m = unquoted raw ∨
        (unquoted raw ∉ s.applied ∧ unquoted raw ∉ s.conflicted) ∧
          m ∉ s.applied ∧ m ∉ s.conflicted := by
      simp [Right, hback]
    rw [hright]
    constructor
    · rintro ⟨hself, hother⟩
      rw [step_skipped hback] at hself hother
      refine or_iff_not_imp_left.mpr fun hm =>
        ⟨⟨fun ha => ?_, fun hc => ?_⟩, fun ha => ?_, fun hc => ?_⟩
      · have hclass := hself _ (names_of_mem h.applied ha)
        simp only [State.class_of, class_step, Finset.mem_erase, ha, Ne.symm hm, ne_eq,
          not_false_iff, true_and, if_true] at hclass
        split_ifs at hclass <;> cases hclass
      · have hclass := hself _ (names_of_mem h.conflicted hc)
        simp [State.class_of, class_step, hc, Ne.symm hm] at hclass
      · have hclass := hother m fun hnames => hm (names_some hnames).2
        simp only [State.class_of, Finset.mem_erase, ha, hmem, ne_eq, not_true_eq_false,
          false_and, if_false, if_true] at hclass
        split_ifs at hclass <;> cases hclass
      · have hclass := hother m fun hnames => hm (names_some hnames).2
        simp [State.class_of, hc, hmem] at hclass
    · intro hright
      refine ⟨fun p hnames => ?_, fun p hnames => ?_⟩
      · have hp : p ∈ add s.skipped raw := mem_add_self hnames
        obtain ⟨-, rfl⟩ := names_some hnames
        rw [step_skipped hback]
        rcases hright with rfl | ⟨⟨ha, hc⟩, -⟩
        · simp [State.class_of, class_step, hp]
        · simp [State.class_of, class_step, hp, ha, hc]
      · rw [step_skipped hback]
        by_cases hp : p = m
        · subst hp
          obtain ⟨hmem', hne⟩ := next_back_other h.skipped hback hnames
          have hnone := (hright.resolve_left hne).2
          simp [State.class_of, hmem, hmem', hnone]
        · simp [State.class_of, hp, mem_add_other hnames]

theorem attributes_hint : Attributes s (.path .Hint raw) := by
  refine ⟨fun p hnames => ?_, fun p hnames => ?_⟩
  · have hp : p ∈ add s.skipped raw := mem_add_self hnames
    change (if p ∈ s.conflicted then _ else if p ∈ s.applied then _ else
      if p ∈ add s.skipped raw then _ else none) = (s.class_of p).or _
    unfold State.class_of
    split_ifs <;> rfl
  · change (if p ∈ s.conflicted then _ else if p ∈ s.applied then _ else
      if p ∈ add s.skipped raw then _ else none) = s.class_of p
    simp [State.class_of, mem_add_other hnames]

/-- What a line of every kind but a failure without a path does to the classes. -/
theorem attributes_iff (h : s.Named) {line : Line} (hline : line ≠ .three_way_failed) :
    Attributes s line ↔ Right s line := by
  cases line with
  | path kind raw =>
    cases kind with
    | Checking => exact iff_of_true ⟨fun _ _ => rfl, fun _ _ => rfl⟩ trivial
    | Applied => exact attributes_applied h
    | Conflicted => exact iff_of_true attributes_conflicted trivial
    | Hint => exact iff_of_true attributes_hint trivial
    | Skipped => exact attributes_skipped h
  | three_way_failed => exact absurd rfl hline
  | other => exact iff_of_true ⟨fun _ _ => rfl, fun _ _ => rfl⟩ trivial

end line

/-! ## The lines of one path -/

/-- Every set is empty, or holds this path alone. -/
structure State.Only (s : State) (p : Text) : Prop where
  applied : ∀ q ∈ s.applied, q = p
  skipped : ∀ q ∈ s.skipped, q = p
  conflicted : ∀ q ∈ s.conflicted, q = p

section only

variable {s : State} {p : Text}

theorem add_only {set : PathSet} {kind : Kind} {raw : Text} (h : ∀ q ∈ set, q = p)
    (hnames : (Line.path kind raw).names = some p) : ∀ q ∈ add set raw, q = p := by
  obtain ⟨hraw, rfl⟩ := names_some hnames
  intro q hq
  rcases (mem_add hraw).mp hq with rfl | hq
  · rfl
  · exact h q hq

theorem right_of_only (h : s.Only p) {line : Line} (hnames : line.names = some p) :
    Right s line := by
  have hback : ∀ {set : PathSet} {kind raw m}, (∀ q ∈ set, q = p) →
      (Line.path kind raw).names = some p → next_back (add set raw) = some m →
        m = unquoted raw := by
    intro set kind raw m hset hraw hm
    rw [add_only hset hraw m (next_back_mem hm), (names_some hraw).2]
  cases line with
  | path kind raw =>
    cases kind with
    | Applied => exact fun m hm => .inl (hback h.applied hnames hm)
    | Skipped => exact fun m hm => .inl (hback h.skipped hnames hm)
    | _ => trivial
  | _ => trivial

theorem erase_only {set : PathSet} (h : ∀ q ∈ set, q = p) (m : Text) : ∀ q ∈ set.erase m, q = p :=
  fun q hq => h q (Finset.mem_of_mem_erase hq)

theorem step_only (h : s.Only p) {line : Line} (hnames : line.names = some p) :
    (s.step line).Only p := by
  cases line with
  | path kind raw =>
    cases kind with
    | Checking => exact ⟨h.applied, h.skipped, h.conflicted⟩
    | Applied =>
      rcases hback : next_back (add s.applied raw) with _ | m
      · exact absurd hnames (names_none hback)
      · rw [step_applied hback]
        exact ⟨add_only h.applied hnames, erase_only h.skipped m, erase_only h.conflicted m⟩
    | Conflicted =>
      rcases hback : next_back (add s.conflicted raw) with _ | m
      · exact absurd hnames (names_none hback)
      · rw [step_conflicted hback]
        exact ⟨erase_only h.applied m, erase_only h.skipped m, add_only h.conflicted hnames⟩
    | Hint => exact ⟨h.applied, add_only h.skipped hnames, h.conflicted⟩
    | Skipped =>
      rcases hback : next_back (add s.skipped raw) with _ | m
      · exact absurd hnames (names_none hback)
      · rw [step_skipped hback]
        exact ⟨erase_only h.applied m, add_only h.skipped hnames, erase_only h.conflicted m⟩
  | _ => cases hnames

end only

section lines

variable (captures : Text → Text → Option Captures)

/-- The path that a line of the output names. -/
def line_path (line : Text) : Option Text := (entry captures line).names

/-- A line that says that a merge failed, without the path. -/
def Pathless (line : Text) : Prop := entry captures line = .three_way_failed

instance (line : Text) : Decidable (Pathless captures line) := inferInstanceAs (Decidable (_ = _))

/-- The lines that name this path. -/
def lines_of (p : Text) (lines : List Text) : List Text :=
  lines.filter fun line => line_path captures line = some p

variable {captures}

theorem parse_append (lines : List Text) (line : Text) :
    parse_lines captures (lines ++ [line]) =
      (parse_lines captures lines).step (entry captures line) := by
  unfold parse_lines
  rw [List.foldl_append]
  rfl

/-- The class of a path from its own lines, one after the other. -/
theorem class_of_own {p : Text} {lines : List Text}
    (h : ∀ line ∈ lines, line_path captures line = some p) :
    (parse_lines captures lines).Only p ∧ (parse_lines captures lines).class_of p =
      lines.foldl (fun c line => class_step c (entry captures line)) none := by
  induction lines using List.reverseRecOn with
  | nil =>
    refine ⟨⟨?_, ?_, ?_⟩, rfl⟩ <;> exact fun q hq => absurd hq (Finset.notMem_empty q)
  | append_singleton lines line ih =>
    have hline : (entry captures line).names = some p := h line (by simp)
    obtain ⟨honly, hclass⟩ := ih fun l hl => h l (by simp [hl])
    have hfailed : entry captures line ≠ .three_way_failed := by
      intro heq
      rw [heq] at hline
      cases hline
    have hattributes := (attributes_iff (parse_named captures lines) hfailed).mpr
      (right_of_only honly hline)
    rw [parse_append, List.foldl_append, hattributes.named p hline, hclass]
    exact ⟨step_only honly hline, rfl⟩

theorem class_of_lines (lines : List Text) (p : Text) :
    (parse_lines captures (lines_of captures p lines)).class_of p =
      keyed (line_path captures) (fun c line => class_step c (entry captures line)) none lines
        p := by
  refine (class_of_own ?_).2
  intro line hline
  simpa using (List.mem_filter.mp hline).2

/-- Without failures that name no path, the classes are those of the own lines exactly when every
line leaves the other paths alone. -/
theorem classes_iff (lines : List Text) :
    (∀ before, before <+: lines → (∀ line ∈ before, ¬ Pathless captures line) → ∀ p,
      (parse_lines captures before).class_of p =
        (parse_lines captures (lines_of captures p before)).class_of p) ↔
      ∀ before line, before ++ [line] <+: lines →
        (∀ l ∈ before ++ [line], ¬ Pathless captures l) →
          Right (parse_lines captures before) (entry captures line) := by
  refine prefixes_iff (fun _ _ => rfl) (fun before line hbefore => ?_) lines
  apply imp_congr_right
  intro hpaths
  have hline : entry captures line ≠ .three_way_failed := hpaths line (by simp)
  have hclass := hbefore fun l hl => hpaths l (by simp [hl])
  simp only [class_of_lines] at hclass ⊢
  rw [← attributes_iff (parse_named captures before) hline]
  simp only [parse_append, keyed_append, ← hclass]
  constructor
  · intro h
    exact ⟨fun p hp => (h p).trans (if_pos hp), fun p hp => (h p).trans (if_neg hp)⟩
  · intro h p
    split_ifs with hp
    · exact h.named p hp
    · exact h.other p hp

/-! ## Failures that name no path -/

variable (captures)

/-- The path that was named last. -/
def last_path (lines : List Text) : Option Text :=
  (lines.filterMap (line_path captures)).getLast?

variable {captures}

def State.sets (s : State) : PathSet × PathSet × PathSet := (s.applied, s.skipped, s.conflicted)

/-- The sets when this path is skipped, and nothing else. -/
def State.skip_path (s : State) (p : Text) : PathSet × PathSet × PathSet :=
  (s.applied.erase p, insert p s.skipped, s.conflicted.erase p)

/-- What is done for the path last seen is what is to be done for `p`: it is `p` itself, without
quotes, or nothing comes of the difference. -/
def SameCharge (s : State) (p seen : Text) : Prop :=
  (unquoted seen = p ∨ p ∈ s.skipped ∧ (unquoted seen = [] ∨ unquoted seen ∈ s.skipped)) ∧
    ∀ set ∈ [s.applied, s.conflicted], seen = p ∨ seen ∉ set ∧ p ∉ set

theorem erase_eq_erase_iff {set : PathSet} {p q : Text} :
    set.erase q = set.erase p ↔ q = p ∨ q ∉ set ∧ p ∉ set := by
  constructor
  · intro h
    refine or_iff_not_imp_left.mpr fun hne => ⟨fun hq => ?_, fun hp => ?_⟩
    · have hmem : q ∈ set.erase p := Finset.mem_erase.mpr ⟨hne, hq⟩
      rw [← h] at hmem
      exact Finset.notMem_erase q set hmem
    · have hmem : p ∈ set.erase q := Finset.mem_erase.mpr ⟨Ne.symm hne, hp⟩
      rw [h] at hmem
      exact Finset.notMem_erase p set hmem
  · rintro (rfl | ⟨hq, hp⟩)
    · rfl
    · rw [Finset.erase_eq_of_notMem hq, Finset.erase_eq_of_notMem hp]

theorem add_eq_insert_iff {set : PathSet} {p raw : Text} (hp : p ≠ []) :
    add set raw = insert p set ↔
      unquoted raw = p ∨ p ∈ set ∧ (unquoted raw = [] ∨ unquoted raw ∈ set) := by
  unfold add
  split_ifs with hraw
  · rw [eq_comm, Finset.insert_eq_self, hraw]
    simp [Ne.symm hp]
  · constructor
    · intro h
      refine or_iff_not_imp_left.mpr fun hne => ?_
      have hleft : unquoted raw ∈ insert p set := h ▸ Finset.mem_insert_self _ _
      have hright : p ∈ insert (unquoted raw) set := h ▸ Finset.mem_insert_self _ _
      exact ⟨(Finset.mem_insert.mp hright).resolve_left (Ne.symm hne),
        .inr ((Finset.mem_insert.mp hleft).resolve_left hne)⟩
    · rintro (rfl | ⟨hmem, hnil | hmem'⟩)
      · rfl
      · exact absurd hnil hraw
      · rw [Finset.insert_eq_self.mpr hmem, Finset.insert_eq_self.mpr hmem']

theorem charge_iff {s : State} {p seen : Text} (hp : p ≠ []) :
    (s.charge seen).sets = s.skip_path p ↔ SameCharge s p seen := by
  unfold State.sets State.charge State.skip_path SameCharge
  simp only [Prod.mk.injEq, erase_eq_erase_iff, add_eq_insert_iff hp, List.forall_mem_cons,
    List.not_mem_nil, false_imp_iff, implies_true, and_true]
  tauto

theorem last_path_append (lines : List Text) (line : Text) :
    last_path captures (lines ++ [line]) =
      (line_path captures line).or (last_path captures lines) := by
  unfold last_path
  rw [List.filterMap_append]
  rcases hline : line_path captures line with _ | p
  · simp [hline]
  · simp [hline]

theorem names_ne_nil {line : Line} {p : Text} (h : line.names = some p) : p ≠ [] := by
  cases line with
  | path kind raw =>
    obtain ⟨hraw, rfl⟩ := names_some h
    exact hraw
  | _ => cases h

/-- A line that names a path makes one last seen, and no line takes that back. -/
theorem step_seen {s : State} {line : Line}
    (h : (∃ p, line.names = some p) ∨ ∃ seen, s.last_seen_path = some seen) :
    ∃ seen, (s.step line).last_seen_path = some seen := by
  cases line with
  | path kind raw =>
    have hkept : ∀ {set : PathSet}, next_back (add set raw) = none →
        ∃ seen, s.last_seen_path = some seen := by
      intro set hback
      rcases h with ⟨p, hnames⟩ | hseen
      · exact absurd hnames (names_none hback)
      · exact hseen
    cases kind with
    | Checking => exact ⟨raw, rfl⟩
    | Applied =>
      rcases hback : next_back (add s.applied raw) with _ | m
      · rw [step_applied_none hback]
        exact hkept hback
      · rw [step_applied hback]
        exact ⟨m, rfl⟩
    | Conflicted =>
      rcases hback : next_back (add s.conflicted raw) with _ | m
      · rw [step_conflicted_none hback]
        exact hkept hback
      · rw [step_conflicted hback]
        exact ⟨m, rfl⟩
    | Hint => exact ⟨raw, rfl⟩
    | Skipped =>
      rcases hback : next_back (add s.skipped raw) with _ | m
      · rw [step_skipped_none hback]
        exact hkept hback
      · rw [step_skipped hback]
        exact ⟨m, rfl⟩
  | three_way_failed =>
    obtain ⟨seen, hseen⟩ := h.resolve_left (by simp [Line.names])
    unfold State.step
    dsimp only
    rw [hseen]
    exact ⟨seen, hseen⟩
  | other => exact h.resolve_left (by simp [Line.names])

/-- A path that was named is not empty, and one was seen. -/
theorem last_path_some {lines : List Text} {p : Text} (h : last_path captures lines = some p) :
    p ≠ [] ∧ ∃ seen, (parse_lines captures lines).last_seen_path = some seen := by
  induction lines using List.reverseRecOn generalizing p with
  | nil => cases h
  | append_singleton lines line ih =>
    rw [last_path_append] at h
    rw [parse_append]
    rcases hline : line_path captures line with _ | q
    · rw [hline, Option.none_or] at h
      obtain ⟨hne, hseen⟩ := ih h
      exact ⟨hne, step_seen (.inr hseen)⟩
    · rw [hline, Option.some_or] at h
      obtain rfl := Option.some.inj h
      exact ⟨names_ne_nil hline, step_seen (.inl ⟨q, hline⟩)⟩

/-- Before a path is named, nothing is known. -/
structure State.Blank (s : State) : Prop where
  applied : s.applied = ∅
  skipped : s.skipped = ∅
  conflicted : s.conflicted = ∅
  seen : ∀ seen, s.last_seen_path = some seen → unquoted seen = []

theorem charge_blank {s : State} (h : s.Blank) {seen : Text} (hseen : unquoted seen = []) :
    (s.charge seen).sets = s.sets := by
  unfold State.charge State.sets add
  simp [h.applied, h.conflicted, hseen]

theorem step_blank {s : State} (h : s.Blank) {line : Line} (hnames : line.names = none) :
    (s.step line).Blank := by
  obtain ⟨ha, hs, hc, hseen⟩ := h
  cases line with
  | path kind raw =>
    have hraw : unquoted raw = [] := by
      by_contra hne
      rw [names_unquoted hne] at hnames
      cases hnames
    have hadd : add ∅ raw = ∅ := if_pos hraw
    have hback : next_back (add ∅ raw) = none := by
      rw [hadd]
      rfl
    cases kind with
    | Checking => exact ⟨ha, hs, hc, fun seen heq => Option.some.inj heq ▸ hraw⟩
    | Applied =>
      rw [step_applied_none (by rw [ha]; exact hback)]
      exact ⟨by rw [ha]; exact hadd, hs, hc, hseen⟩
    | Conflicted =>
      rw [step_conflicted_none (by rw [hc]; exact hback)]
      exact ⟨ha, hs, by rw [hc]; exact hadd, hseen⟩
    | Hint => exact ⟨ha, by rw [← hadd, ← hs]; rfl, hc, fun seen heq => Option.some.inj heq ▸ hraw⟩
    | Skipped =>
      rw [step_skipped_none (by rw [hs]; exact hback)]
      exact ⟨ha, by rw [hs]; exact hadd, hc, hseen⟩
  | three_way_failed =>
    unfold State.step
    dsimp only
    rcases hlast : s.last_seen_path with _ | seen
    · exact ⟨ha, hs, hc, hseen⟩
    · have hsets := charge_blank ⟨ha, hs, hc, hseen⟩ (hseen seen hlast)
      obtain ⟨hsets₁, hsets₂⟩ := Prod.mk.inj hsets
      obtain ⟨hsets₂, hsets₃⟩ := Prod.mk.inj hsets₂
      exact ⟨hsets₁.trans ha, hsets₂.trans hs, hsets₃.trans hc, hseen⟩
  | other => exact ⟨ha, hs, hc, hseen⟩

theorem last_path_none {lines : List Text} (h : last_path captures lines = none) :
    (parse_lines captures lines).Blank := by
  induction lines using List.reverseRecOn with
  | nil => exact ⟨rfl, rfl, rfl, fun seen heq => by cases heq⟩
  | append_singleton lines line ih =>
    rw [last_path_append, Option.or_eq_none_iff] at h
    rw [parse_append]
    exact step_blank (ih h.2) h.1

variable (captures)

/-- A failure that names no path is charged to the path that was named last. -/
def Charged (before : List Text) (line : Text) : Prop :=
  (parse_lines captures (before ++ [line])).sets =
    match last_path captures before with
    | some p => (parse_lines captures before).skip_path p
    | none => (parse_lines captures before).sets

variable {captures}

theorem charged_iff {before : List Text} {line : Text} (h : Pathless captures line) :
    Charged captures before line ↔ ∀ p seen, last_path captures before = some p →
      (parse_lines captures before).last_seen_path = some seen →
        SameCharge (parse_lines captures before) p seen := by
  unfold Charged
  rw [parse_append, h]
  rcases hlast : last_path captures before with _ | p
  · have hblank := last_path_none hlast
    refine iff_of_true ?_ (by simp)
    unfold State.step
    dsimp only
    rcases hseen : (parse_lines captures before).last_seen_path with _ | seen
    · rfl
    · exact charge_blank hblank (hblank.seen seen hseen)
  · obtain ⟨hne, seen, hseen⟩ := last_path_some hlast
    have hcharge := @charge_iff (parse_lines captures before) _ seen hne
    unfold State.step
    dsimp only
    rw [hseen]
    dsimp only
    rw [hcharge]
    simp

/-! ## Every output -/

variable (captures)

/-- The classes of the output are those of the own lines of every path, and a failure that names no
path is charged to the path named last. -/
structure Attributed (lines : List Text) : Prop where
  classes : ∀ before, before <+: lines → (∀ line ∈ before, ¬ Pathless captures line) → ∀ p,
    (parse_lines captures before).finish.class_of p =
      (parse_lines captures (lines_of captures p before)).finish.class_of p
  charged : ∀ before line, before ++ [line] <+: lines → Pathless captures line →
    Charged captures before line

/-- Before a line that records a path, this path is the greatest of its set, or neither it nor the
greatest one is in a set that it is taken out of; before a failure that names no path, the path last
seen is the one named last, without quotes, or charging the one is as charging the other. -/
structure LineRight (before : List Text) (line : Text) : Prop where
  path : (∀ l ∈ before ++ [line], ¬ Pathless captures l) →
    Right (parse_lines captures before) (entry captures line)
  failure : Pathless captures line → ∀ p seen, last_path captures before = some p →
    (parse_lines captures before).last_seen_path = some seen →
      SameCharge (parse_lines captures before) p seen

variable {captures}

/-- Every line of an output of `git apply` is about its own path exactly when the greatest path of a
set is never taken for another one that was just added, to any effect. The three lists have no path
in common in any case. -/
theorem attributed_iff (captures : Text → Text → Option Captures) (lines : List Text) :
    (Attributed captures lines ↔
      ∀ before line, before ++ [line] <+: lines → LineRight captures before line) ∧
    ∀ stdout stderr, let output := parse_git_apply_output captures stdout stderr
      List.Disjoint output.applied_paths output.skipped_paths ∧
        List.Disjoint output.applied_paths output.conflicted_paths ∧
        List.Disjoint output.skipped_paths output.conflicted_paths := by
  refine ⟨?_, fun stdout stderr => finish_disjoint _⟩
  have hclasses := @classes_iff captures lines
  simp only [← class_of_finish] at hclasses
  constructor
  · rintro ⟨hclass, hcharged⟩ before line hbefore
    refine ⟨hclasses.mp hclass before line hbefore, fun hpathless => ?_⟩
    exact (charged_iff hpathless).mp (hcharged before line hbefore hpathless)
  · intro h
    refine ⟨hclasses.mpr fun before line hbefore => (h before line hbefore).path, ?_⟩
    intro before line hbefore hpathless
    exact (charged_iff hpathless).mpr ((h before line hbefore).failure hpathless)

end lines

/-- The captures of three patterns in the lines that `git` writes for them. -/
def plain_captures (pattern line : Text) : Option Captures :=
  if pattern = APPLIED_CLEAN then
    ((Text.strip_prefix line "Applied patch ".toList).bind
      fun rest => Text.strip_suffix rest " cleanly.".toList).map fun path _ => some path
  else if pattern = UNMERGED_LINE then
    (Text.strip_prefix line "U ".toList).map fun path _ => some path
  else if pattern = THREE_WAY_FAILED ∧ line = "Failed to perform three-way merge...".toList then
    some fun _ => none
  else none

/-- The file `a` is merged, but stays in conflict because `z` is the greatest applied path. -/
theorem not_attributed : ¬ Attributed plain_captures
    ["U a".toList, "Applied patch z cleanly.".toList, "Applied patch a cleanly.".toList] := by
  rintro ⟨hclasses, -⟩
  have hclass := hclasses _ (List.prefix_refl _) (by decide +kernel) "a".toList
  rw [class_of_finish, class_of_finish] at hclass
  revert hclass
  decide +kernel

end Ecode.git_apply
