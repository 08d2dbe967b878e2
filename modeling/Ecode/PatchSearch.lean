-- The search order of seek_sequence (apply-patch/src/seek_sequence.rs): the levels from the
-- strictest to the laxest, the first place at a level, and the end of the file first when
-- the chunk stands there.
import Ecode.PatchRegions

namespace Ecode.apply_patch

/-! ## A search through levels -/

section levels

variable {α : Type} {Fits : α → Nat → Prop} {levels : List α} {start : Nat}

/-- What a search from `start` on gives that takes one level after the other: the first place
of the first level that has a place at all. -/
def Searched (Fits : α → Nat → Prop) (levels : List α) (start : Nat) : Option Nat → Prop
  | some i => ∃ stricter f laxer, levels = stricter ++ f :: laxer ∧ start ≤ i ∧ Fits f i ∧
      (∀ j, start ≤ j → j < i → ¬ Fits f j) ∧ ∀ g ∈ stricter, ∀ j, start ≤ j → ¬ Fits g j
  | none => ∀ f ∈ levels, ∀ j, start ≤ j → ¬ Fits f j

/-- One pass a level makes such a search. -/
theorem searched_findSome {pass : α → Option Nat}
    (hsome : ∀ f i, pass f = some i → start ≤ i ∧ Fits f i ∧ ∀ j, start ≤ j → j < i → ¬ Fits f j)
    (hnone : ∀ f, pass f = none → ∀ j, start ≤ j → ¬ Fits f j) :
    Searched Fits levels start (levels.findSome? pass) := by
  cases hfound : levels.findSome? pass with
  | none =>
    intro f hf
    apply hnone
    exact List.findSome?_eq_none_iff.mp hfound f hf
  | some i =>
    obtain ⟨stricter, f, laxer, hlevels, hf, hstricter⟩ := List.findSome?_eq_some_iff.mp hfound
    obtain ⟨hstart, hfits, hfirst⟩ := hsome f i hf
    refine ⟨stricter, f, laxer, hlevels, hstart, hfits, hfirst, ?_⟩
    intro g hg
    apply hnone
    exact hstricter g hg

theorem Searched.start_le {i : Nat} (h : Searched Fits levels start (some i)) : start ≤ i := by
  obtain ⟨-, f, -, -, hstart, -⟩ := h
  exact hstart

theorem Searched.fits {i : Nat} (h : Searched Fits levels start (some i)) :
    ∃ f ∈ levels, Fits f i := by
  obtain ⟨stricter, f, laxer, hlevels, -, hfits, -⟩ := h
  refine ⟨f, ?_, hfits⟩
  simp [hlevels]

end levels

/-! ## The levels of a chunk -/

section seek

variable {lines pattern : List Text} {start : Nat} {eof : Bool}

/-- How the lines are read, from the strictest level to the laxest. -/
def seek_levels : List (Text → Text) := [id, Text.trim_end, Text.trim, normalise]

/-- The lines from `i` on are the pattern, both read through `f`. -/
def FitsAt (lines pattern : List Text) (f : Text → Text) (i : Nat) : Prop :=
  i + pattern.length ≤ lines.length ∧
    ((lines.drop i).take pattern.length).map f = pattern.map f

instance (f : Text → Text) (i : Nat) : Decidable (FitsAt lines pattern f i) :=
  inferInstanceAs (Decidable (_ ∧ _))

/-- Where a pattern stands that ends with the file. -/
def eof_start (lines pattern : List Text) : Nat := lines.length - pattern.length

/-- Some level finds the pattern at the end of the file. -/
def FitsAtEnd (lines pattern : List Text) : Prop :=
  ∃ f ∈ seek_levels, FitsAt lines pattern f (eof_start lines pattern)

instance : Decidable (FitsAtEnd lines pattern) :=
  inferInstanceAs (Decidable (∃ f ∈ seek_levels, FitsAt lines pattern f (eof_start lines pattern)))

theorem seek_pass_first {f : Text → Text} {i : Nat} (hlen : pattern.length ≤ lines.length)
    (h : seek_pass f lines pattern start = some i) :
    start ≤ i ∧ FitsAt lines pattern f i ∧
      ∀ j, start ≤ j → j < i → ¬ FitsAt lines pattern f j := by
  unfold seek_pass at h
  rw [List.find?_range'_eq_some, List.mem_range'_1] at h
  obtain ⟨hfits, hmem, hfirst⟩ := h
  refine ⟨hmem.1, ⟨by omega, beq_iff_eq.mp hfits⟩, ?_⟩
  intro j hstart hj hfits'
  have hnot := hfirst j hstart hj
  simp [hfits'.2] at hnot

theorem seek_pass_nowhere {f : Text → Text} (h : seek_pass f lines pattern start = none) :
    ∀ j, start ≤ j → ¬ FitsAt lines pattern f j := by
  unfold seek_pass at h
  rw [List.find?_range'_eq_none] at h
  rintro j hstart ⟨hin, hfits⟩
  have hnot := h j hstart (by omega)
  simp [hfits] at hnot

/-- The passes of `seek_sequence` are one a level, and each begins at the same line. -/
theorem seek_sequence_passes (hne : pattern ≠ []) (hlen : pattern.length ≤ lines.length) :
    seek_sequence lines pattern start eof = seek_levels.findSome? fun f =>
      seek_pass f lines pattern (if eof then eof_start lines pattern else start) := by
  unfold seek_sequence
  rw [if_neg (by simpa using hne), if_neg (by omega)]
  simp only [seek_levels, eof_start, List.findSome?_cons, List.findSome?_nil]
  cases seek_pass id lines pattern _ <;> cases seek_pass Text.trim_end lines pattern _ <;>
    cases seek_pass Text.trim lines pattern _ <;> cases seek_pass normalise lines pattern _ <;> rfl

/-- So the search is one through the levels from that line on. -/
theorem seek_sequence_searched (hne : pattern ≠ []) :
    Searched (FitsAt lines pattern) seek_levels (if eof then eof_start lines pattern else start)
      (seek_sequence lines pattern start eof) := by
  rcases Nat.lt_or_ge lines.length pattern.length with hshort | hlen
  · have hnone : seek_sequence lines pattern start eof = none := by
      unfold seek_sequence
      rw [if_neg (by simpa using hne), if_pos hshort]
    rw [hnone]
    rintro f - j - ⟨hin, -⟩
    omega
  · rw [seek_sequence_passes hne hlen]
    apply searched_findSome
    · intro f i h
      exact seek_pass_first hlen h
    · intro f h
      exact seek_pass_nowhere h

/-- At the end of the file there is one place only. -/
theorem FitsAt.at_end {f : Text → Text} {i : Nat} (h : FitsAt lines pattern f i)
    (hle : eof_start lines pattern ≤ i) : i = eof_start lines pattern := by
  have hin := h.1
  unfold eof_start at hle ⊢
  omega

/-- With `eof` the search gives the end of the file when a level finds the pattern there, and
nothing otherwise. -/
theorem seek_sequence_eof (hne : pattern ≠ []) :
    seek_sequence lines pattern start true =
      if FitsAtEnd lines pattern then some (eof_start lines pattern) else none := by
  have hsearch := @seek_sequence_searched lines pattern start true hne
  rw [if_pos rfl] at hsearch
  cases hseek : seek_sequence lines pattern start true with
  | none =>
    rw [hseek] at hsearch
    rw [if_neg]
    rintro ⟨f, hf, hfits⟩
    exact hsearch f hf _ (Nat.le_refl _) hfits
  | some i =>
    rw [hseek] at hsearch
    obtain ⟨f, hf, hfits⟩ := hsearch.fits
    have hi := hfits.at_end hsearch.start_le
    rw [if_pos ⟨f, hf, hi ▸ hfits⟩, hi]

/-- The documented search order. The empty pattern has a place of its own there. -/
structure SearchOrder (lines pattern : List Text) (start : Nat) (eof : Bool) (r : Option Nat) :
    Prop where
  range : ∀ i, r = some i → start ≤ i ∧ i + pattern.length ≤ lines.length
  empty : pattern = [] → r = some start
  forward : eof = false → Searched (FitsAt lines pattern) seek_levels start r
  end_first : eof = true → pattern ≠ [] → start ≤ eof_start lines pattern →
    FitsAtEnd lines pattern → r = some (eof_start lines pattern)
  fall_back : eof = true → pattern ≠ [] →
    ¬ (start ≤ eof_start lines pattern ∧ FitsAtEnd lines pattern) →
      Searched (FitsAt lines pattern) seek_levels start r

/-- When the search has that order: an empty pattern is looked for within the file, and a
pattern with `eof` either ends the file, not before `start`, or stands nowhere from `start` on. -/
def OrderKept (lines pattern : List Text) (start : Nat) (eof : Bool) : Prop :=
  (pattern = [] → start ≤ lines.length) ∧
    (eof = true → pattern ≠ [] → if FitsAtEnd lines pattern then start ≤ eof_start lines pattern
      else ∀ f ∈ seek_levels, ∀ j, start ≤ j → ¬ FitsAt lines pattern f j)

theorem searched_nil (hstart : start ≤ lines.length) :
    Searched (FitsAt lines []) seek_levels start (some start) := by
  refine ⟨[], id, _, rfl, Nat.le_refl _, ⟨by simpa using hstart, rfl⟩, ?_, ?_⟩
  · intro j hle hlt
    omega
  · intro g hg
    simp at hg

/-- The empty pattern is found at `start`, which the file need not have. -/
theorem order_nil_iff :
    SearchOrder lines [] start eof (seek_sequence lines [] start eof) ↔ start ≤ lines.length := by
  rw [seek_sequence_nil]
  constructor
  · intro h
    have hin := (h.range start rfl).2
    simpa using hin
  · intro hstart
    refine ⟨?_, fun _ => rfl, fun _ => searched_nil hstart, fun _ hnil => absurd rfl hnil,
      fun _ hnil => absurd rfl hnil⟩
    rintro i ⟨⟩
    simpa using hstart

/-- Without `eof` the order is kept. -/
theorem order_forward (hne : pattern ≠ []) :
    SearchOrder lines pattern start false (seek_sequence lines pattern start false) := by
  have hsearch := @seek_sequence_searched lines pattern start false hne
  rw [if_neg (by decide)] at hsearch
  refine ⟨?_, fun hnil => absurd hnil hne, fun _ => hsearch, nofun, nofun⟩
  intro i hi
  rw [hi] at hsearch
  obtain ⟨f, -, hfits⟩ := hsearch.fits
  exact ⟨hsearch.start_le, hfits.1⟩

/-- With `eof` and a pattern at the end of the file, that end must not lie before `start`. -/
theorem order_end_iff (hne : pattern ≠ []) (hend : FitsAtEnd lines pattern) :
    SearchOrder lines pattern start true (seek_sequence lines pattern start true) ↔
      start ≤ eof_start lines pattern := by
  rw [seek_sequence_eof hne, if_pos hend]
  constructor
  · intro h
    exact (h.range _ rfl).1
  · intro hstart
    refine ⟨?_, fun hnil => absurd hnil hne, nofun, fun _ _ _ _ => rfl,
      fun _ _ hnot => absurd ⟨hstart, hend⟩ hnot⟩
    rintro i ⟨⟩
    obtain ⟨f, -, hfits⟩ := hend
    exact ⟨hstart, hfits.1⟩

/-- With `eof` and no pattern at the end of the file nothing is found, so there must be none
from `start` on. -/
theorem order_no_end_iff (hne : pattern ≠ []) (hend : ¬ FitsAtEnd lines pattern) :
    SearchOrder lines pattern start true (seek_sequence lines pattern start true) ↔
      ∀ f ∈ seek_levels, ∀ j, start ≤ j → ¬ FitsAt lines pattern f j := by
  rw [seek_sequence_eof hne, if_neg hend]
  constructor
  · intro h
    exact h.fall_back rfl hne fun hboth => hend hboth.2
  · intro hnowhere
    exact ⟨nofun, fun hnil => absurd hnil hne, nofun, fun _ _ _ hfits => absurd hfits hend,
      fun _ _ _ => hnowhere⟩

/-- `seek_sequence` keeps the documented order on exactly these inputs. -/
theorem seek_sequence_order_iff (lines pattern : List Text) (start : Nat) (eof : Bool) :
    SearchOrder lines pattern start eof (seek_sequence lines pattern start eof) ↔
      OrderKept lines pattern start eof := by
  unfold OrderKept
  by_cases hnil : pattern = []
  · subst hnil
    simp [order_nil_iff]
  cases eof with
  | false => simp [hnil, order_forward hnil]
  | true =>
    by_cases hend : FitsAtEnd lines pattern
    · simp [hnil, hend, order_end_iff hnil hend]
    · simp only [hnil, hend, order_no_end_iff hnil hend, if_false, false_implies, true_and,
        not_false_eq_true, true_implies, ne_eq]

/-- A chunk with `eof` that stands on the first line only is not found, though the search
should fall back to it. -/
theorem seek_sequence_no_fall_back :
    ¬ SearchOrder ["a".toList, "b".toList] ["a".toList] 0 true
      (seek_sequence ["a".toList, "b".toList] ["a".toList] 0 true) := by
  intro h
  have hnone : seek_sequence ["a".toList, "b".toList] ["a".toList] 0 true = none := by decide
  rw [hnone] at h
  have hnowhere := h.fall_back rfl (by simp) (by decide)
  exact hnowhere id (by simp [seek_levels]) 0 (Nat.le_refl _) (by decide)

end seek

end Ecode.apply_patch
