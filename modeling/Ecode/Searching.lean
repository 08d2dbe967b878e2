-- The first place of a pattern in a list that comes in pieces: what is found stays found, and the
-- end that may begin the pattern is all that has to be held back.
import Mathlib

namespace Ecode.searching

variable {α : Type} [DecidableEq α]

/-! ## The first place -/

/-- What is before the first place of the pattern and what is after it. -/
def split_first (pattern : List α) : List α → Option (List α × List α)
  | [] => if pattern = [] then some ([], []) else none
  | c :: rest =>
    if pattern.isPrefixOf (c :: rest) then some ([], (c :: rest).drop pattern.length)
    else (split_first pattern rest).map fun p => (c :: p.1, p.2)

/-- The list is split at a place of the pattern, and there is none before it. -/
def IsFirst (pattern list before after : List α) : Prop :=
  list = before ++ (pattern ++ after) ∧
    ∀ before' after', list = before' ++ (pattern ++ after') → before.length ≤ before'.length

def Absent (pattern list : List α) : Prop := ∀ before after, list ≠ before ++ (pattern ++ after)

theorem isPrefixOf_iff {pattern list : List α} :
    pattern.isPrefixOf list = true ↔ ∃ after, list = pattern ++ after := by
  rw [ List.isPrefixOf_iff_prefix]
  exact ⟨fun ⟨after, h⟩ => ⟨after, h.symm⟩, fun ⟨after, h⟩ => ⟨after, h.symm⟩⟩

/-- A place of the pattern is at the head or in the rest. -/
theorem place_cons {pattern rest before after : List α} {c : α}
    (h : c :: rest = before ++ (pattern ++ after)) :
    before = [] ∧ pattern.isPrefixOf (c :: rest) = true ∨
      ∃ before', before = c :: before' ∧ rest = before' ++ (pattern ++ after) := by
  cases before with
  | nil => exact .inl ⟨rfl, isPrefixOf_iff.mpr ⟨after, h⟩⟩
  | cons d before' =>
    obtain ⟨rfl, hrest⟩ := List.cons.inj h
    exact .inr ⟨before', rfl, hrest⟩

theorem isFirst_of_split_first {pattern list : List α} {p : List α × List α}
    (h : split_first pattern list = some p) : IsFirst pattern list p.1 p.2 := by
  induction list generalizing p with
  | nil =>
    unfold split_first at h
    split at h
    · rename_i hnil
      obtain rfl := Option.some.inj h
      exact ⟨by simp [hnil], fun _ _ _ => Nat.zero_le _⟩
    · cases h
  | cons c rest ih =>
    unfold split_first at h
    split at h
    · rename_i hprefix
      obtain rfl := Option.some.inj h
      obtain ⟨after, hafter⟩ := isPrefixOf_iff.mp hprefix
      exact ⟨by simp [hafter], fun _ _ _ => Nat.zero_le _⟩
    · rename_i hprefix
      obtain ⟨q, hq, rfl⟩ := Option.map_eq_some_iff.mp h
      obtain ⟨hlist, hleast⟩ := ih hq
      refine ⟨by rw [List.cons_append, ← hlist], fun before after hplace => ?_⟩
      obtain ⟨-, hhead⟩ | ⟨before', rfl, hrest⟩ := place_cons hplace
      · exact absurd hhead hprefix
      · exact Nat.succ_le_succ (hleast before' after hrest)

theorem absent_of_split_first {pattern list : List α} (h : split_first pattern list = none) :
    Absent pattern list := by
  induction list with
  | nil =>
    intro before after hplace
    have hnil : pattern = [] := by
      have hparts := List.append_eq_nil_iff.mp hplace.symm
      exact (List.append_eq_nil_iff.mp hparts.2).1
    simp [split_first, hnil] at h
  | cons c rest ih =>
    unfold split_first at h
    split at h
    · cases h
    · rename_i hprefix
      intro before after hplace
      obtain ⟨-, hhead⟩ | ⟨before', rfl, hrest⟩ := place_cons hplace
      · exact absurd hhead hprefix
      · exact ih (Option.map_eq_none_iff.mp h) before' after hrest

/-- There is only one first place. -/
theorem split_first_of_isFirst {pattern list before after : List α}
    (h : IsFirst pattern list before after) : split_first pattern list = some (before, after) := by
  cases hsplit : split_first pattern list with
  | none => exact absurd h.1 (absent_of_split_first hsplit before after)
  | some p =>
    obtain ⟨hlist, hleast⟩ := isFirst_of_split_first hsplit
    have hlength : p.1.length = before.length :=
      Nat.le_antisymm (hleast before after h.1) (h.2 p.1 p.2 hlist)
    obtain ⟨hbefore, hrest⟩ := List.append_inj (hlist.symm.trans h.1) hlength
    rw [← hbefore, ← List.append_cancel_left hrest]

theorem split_first_of_absent {pattern list : List α} (h : Absent pattern list) :
    split_first pattern list = none := by
  cases hsplit : split_first pattern list with
  | none => rfl
  | some p => exact absurd (isFirst_of_split_first hsplit).1 (h p.1 p.2)

/-- What is found stays found when more comes. -/
theorem split_first_append {pattern list : List α} {p : List α × List α}
    (h : split_first pattern list = some p) (more : List α) :
    split_first pattern (list ++ more) = some (p.1, p.2 ++ more) := by
  induction list generalizing p with
  | nil =>
    unfold split_first at h
    split at h
    · rename_i hnil
      obtain rfl := Option.some.inj h
      cases more <;> simp [split_first, hnil]
    · cases h
  | cons c rest ih =>
    unfold split_first at h
    split at h
    · rename_i hprefix
      obtain rfl := Option.some.inj h
      obtain ⟨after, hafter⟩ := isPrefixOf_iff.mp hprefix
      have hlong : pattern.isPrefixOf (c :: (rest ++ more)) = true :=
        isPrefixOf_iff.mpr ⟨after ++ more, by rw [← List.cons_append, hafter, List.append_assoc]⟩
      rw [List.cons_append, split_first, if_pos hlong, ← List.cons_append, hafter]
      simp
    · rename_i hprefix
      obtain ⟨q, hq, rfl⟩ := Option.map_eq_some_iff.mp h
      have hplace := (isFirst_of_split_first hq).1
      have hshort : pattern.length ≤ (c :: rest).length := by
        rw [hplace]
        simp only [List.length_cons, List.length_append]
        omega
      have hlong : ¬ pattern.isPrefixOf (c :: (rest ++ more)) = true := by
        intro h
        apply hprefix
        rw [ List.isPrefixOf_iff_prefix] at h ⊢
        exact List.prefix_of_prefix_length_le h (List.prefix_append (c :: rest) more) hshort
      rw [List.cons_append, split_first, if_neg hlong, ih hq]
      rfl

/-! ## What is held back -/

/-- The list up to its longest end that begins the pattern and is not all of it, and this end. -/
def hold (pattern : List α) : List α → List α × List α
  | [] => ([], [])
  | c :: rest =>
    if (c :: rest).isPrefixOf pattern && rest.length + 1 < pattern.length then ([], c :: rest)
    else
      let (sent, held) := hold pattern rest
      (c :: sent, held)

/-- An end of the list that begins the pattern and is not all of it. -/
def Begins (pattern list held : List α) : Prop :=
  held <:+ list ∧ held <+: pattern ∧ held.length < pattern.length

theorem hold_append_self (pattern list : List α) :
    (hold pattern list).1 ++ (hold pattern list).2 = list := by
  induction list with
  | nil => rfl
  | cons c rest ih =>
    unfold hold
    split
    · rfl
    · exact congrArg (c :: ·) ih

theorem hold_begins {pattern : List α} (hpattern : pattern ≠ []) (list : List α) :
    Begins pattern list (hold pattern list).2 := by
  induction list with
  | nil => exact ⟨List.suffix_refl _, List.nil_prefix, List.length_pos_iff.mpr hpattern⟩
  | cons c rest ih =>
    unfold hold
    split
    · rename_i h
      simp only [Bool.and_eq_true, List.isPrefixOf_iff_prefix, decide_eq_true_eq] at h
      exact ⟨List.suffix_refl _, h.1, h.2⟩
    · obtain ⟨hend, hbegins, hlength⟩ := ih
      exact ⟨hend.trans (List.suffix_cons c rest), hbegins, hlength⟩

/-- The end that is held back is the longest of its kind. -/
theorem hold_longest {pattern list held : List α} (h : Begins pattern list held) :
    held.length ≤ (hold pattern list).2.length := by
  induction list with
  | nil =>
    obtain rfl := List.suffix_nil.mp h.1
    exact Nat.zero_le _
  | cons c rest ih =>
    obtain ⟨hend, hbegins, hlength⟩ := h
    unfold hold
    split
    · exact hend.length_le
    · rename_i hnot
      obtain rfl | hrest := List.suffix_cons_iff.mp hend
      · refine absurd ?_ hnot
        simp only [Bool.and_eq_true, List.isPrefixOf_iff_prefix, decide_eq_true_eq]
        exact ⟨hbegins, hlength⟩
      · exact ih ⟨hrest, hbegins, hlength⟩

/-- With more to come, only what is held back can still begin a place of the pattern. -/
theorem hold_append (pattern list more : List α) :
    hold pattern (list ++ more) =
      ((hold pattern list).1 ++ (hold pattern ((hold pattern list).2 ++ more)).1,
        (hold pattern ((hold pattern list).2 ++ more)).2) := by
  induction list with
  | nil => rfl
  | cons c rest ih =>
    by_cases hbegins : ((c :: rest).isPrefixOf pattern && rest.length + 1 < pattern.length) = true
    · have hself : hold pattern (c :: rest) = ([], c :: rest) := by rw [hold, if_pos hbegins]
      rw [hself]
      rfl
    · have hmore : ¬ ((c :: (rest ++ more)).isPrefixOf pattern &&
          (rest ++ more).length + 1 < pattern.length) = true := by
        intro h
        apply hbegins
        simp only [Bool.and_eq_true, List.isPrefixOf_iff_prefix, decide_eq_true_eq,
          List.length_append] at h ⊢
        exact ⟨(List.prefix_append (c :: rest) more).trans h.1, by omega⟩
      rw [List.cons_append, hold, if_neg hmore, hold, if_neg hbegins, ih]
      rfl

theorem split_first_hold {pattern list : List α}
    (h : split_first pattern list = none) (more : List α) :
    split_first pattern (list ++ more) =
      (split_first pattern ((hold pattern list).2 ++ more)).map
        fun p => ((hold pattern list).1 ++ p.1, p.2) := by
  induction list with
  | nil => simp [hold]
  | cons c rest ih =>
    unfold split_first at h
    split at h
    · cases h
    rename_i hprefix
    by_cases hbegins : ((c :: rest).isPrefixOf pattern && rest.length + 1 < pattern.length) = true
    · have hself : hold pattern (c :: rest) = ([], c :: rest) := by rw [hold, if_pos hbegins]
      rw [hself]
      simp
    · have hmore : ¬ pattern.isPrefixOf (c :: (rest ++ more)) = true := by
        intro h
        rw [ List.isPrefixOf_iff_prefix] at h
        obtain hshort | hlong := Nat.lt_or_ge (rest.length + 1) pattern.length
        · apply hbegins
          simp only [Bool.and_eq_true, List.isPrefixOf_iff_prefix, decide_eq_true_eq]
          exact ⟨List.prefix_of_prefix_length_le (List.prefix_append (c :: rest) more) h
            (Nat.le_of_lt hshort), hshort⟩
        · apply hprefix
          rw [ List.isPrefixOf_iff_prefix]
          exact List.prefix_of_prefix_length_le h (List.prefix_append (c :: rest) more) hlong
      rw [List.cons_append, split_first, if_neg hmore, ih (Option.map_eq_none_iff.mp h), hold,
        if_neg hbegins, Option.map_map]
      rfl

end Ecode.searching
