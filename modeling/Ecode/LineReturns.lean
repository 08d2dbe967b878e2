-- Lines that end in a carriage return. `str::lines` takes one off each line that a line feed
-- ends, so a text that is joined from its lines and split again can lose some.
import Ecode.TextLines

namespace Ecode.Text

/-- A line without a carriage return at its end. -/
def bare (l : Text) : Text := (strip_suffix l ['\r']).getD l

@[simp]
theorem bare_append (l : Text) : bare (l ++ ['\r']) = l := by
  unfold bare
  rw [strip_suffix_append]
  rfl

theorem bare_eq_self {l : Text} (h : l.getLast? ≠ some '\r') : bare l = l := by
  unfold bare
  rw [strip_suffix_singleton h]
  rfl

/-- A line is bare, or a bare one with a carriage return. -/
theorem bare_cases (l : Text) :
    (l.getLast? ≠ some '\r' ∧ bare l = l) ∨ l = bare l ++ ['\r'] := by
  by_cases h : l.getLast? = some '\r'
  · obtain ⟨k, rfl⟩ := List.getLast?_eq_some_iff.mp h
    right
    rw [bare_append]
  · exact Or.inl ⟨h, bare_eq_self h⟩

theorem trim_end_append_return (l : Text) : trim_end (l ++ ['\r']) = trim_end l := by
  unfold trim_end
  rw [List.reverse_append]
  rfl

theorem trim_append_return (l : Text) : trim (l ++ ['\r']) = trim l := by
  unfold trim trim_start
  rw [List.dropWhile_append]
  split
  · next hempty =>
    rw [List.isEmpty_iff.mp hempty]
    rfl
  · exact trim_end_append_return _

@[simp]
theorem trim_bare (l : Text) : trim (bare l) = trim l := by
  rcases bare_cases l with ⟨-, hself⟩ | heq
  · rw [hself]
  · conv_rhs => rw [heq, trim_append_return]

theorem strip_prefix_append_return {p : Text} (hp : '\r' ∉ p) (l : Text) :
    strip_prefix (l ++ ['\r']) p = (Text.strip_prefix l p).map (· ++ ['\r']) := by
  induction p generalizing l with
  | nil => cases l <;> rfl
  | cons c p ih =>
    rw [List.mem_cons, not_or] at hp
    cases l with
    | nil => simp [Text.strip_prefix, hp.1]
    | cons d l =>
      simp only [List.cons_append, strip_prefix]
      split
      · exact ih hp.2 l
      · rfl

theorem starts_with_append_return {p : Text} (hp : '\r' ∉ p) (l : Text) :
    starts_with (l ++ ['\r']) p = starts_with l p := by
  unfold starts_with
  induction p generalizing l with
  | nil => simp
  | cons c p ih =>
    rw [List.mem_cons, not_or] at hp
    cases l with
    | nil =>
      have hne : (c == '\r') = false := by simpa using Ne.symm hp.1
      simp [List.isPrefixOf, hne]
    | cons d l =>
      simp only [List.cons_append, List.isPrefixOf_cons_cons]
      rw [ih hp.2 l]

theorem starts_with_bare {p : Text} (hp : '\r' ∉ p) (l : Text) :
    starts_with (bare l) p = starts_with l p := by
  rcases bare_cases l with ⟨-, hself⟩ | heq
  · rw [hself]
  · conv_rhs => rw [heq, starts_with_append_return hp]

theorem strip_prefix_isSome_bare {p : Text} (hp : '\r' ∉ p) (l : Text) :
    (Text.strip_prefix (bare l) p).isSome = (Text.strip_prefix l p).isSome := by
  rcases bare_cases l with ⟨-, hself⟩ | heq
  · rw [hself]
  · conv_rhs => rw [heq, strip_prefix_append_return hp, Option.isSome_map]

/-! ## Splitting into lines -/

theorem chomp_append (l : Text) : chomp (l ++ ['\n']) = bare l := by
  unfold chomp bare
  rw [strip_suffix_append]

/-- Of each line that a line feed ends, a carriage return is taken off. -/
theorem lines_append {ls : List Text} (h : ∀ l ∈ ls, '\n' ∉ l) (t : Text) :
    lines (terminated ls ++ t) = ls.map bare ++ lines t := by
  unfold lines
  rw [split_inclusive_terminated h, List.map_append, List.map_map]
  congr 1
  apply List.map_congr_left
  intro l _
  exact chomp_append l

theorem lines_last {l : Text} (h : '\n' ∉ l) (hne : l ≠ []) : lines l = [l] := by
  unfold lines
  rw [split_inclusive_last h hne, List.map_singleton, chomp_last h]

theorem not_mem_bare {l : Text} {c : Char} (h : c ∉ l) : c ∉ bare l := by
  rcases bare_cases l with ⟨-, hself⟩ | heq
  · rwa [hself]
  · intro hmem
    rw [heq] at h
    exact h (List.mem_append_left _ hmem)

theorem not_mem_lines {t l : Text} (h : l ∈ lines t) : '\n' ∉ l := by
  obtain ⟨ls, last, rfl, hls, hlast⟩ := exists_terminated t
  rw [lines_append hls, List.mem_append] at h
  rcases h with h | h
  · obtain ⟨k, hk, rfl⟩ := List.mem_map.mp h
    exact not_mem_bare (hls k hk)
  · by_cases hne : last = []
    · subst hne
      cases h
    · rw [lines_last hlast hne, List.mem_singleton] at h
      rwa [h]

theorem join_concat (ls : List Text) (last : Text) :
    join ['\n'] (ls ++ [last]) = terminated ls ++ last := by
  induction ls with
  | nil => rfl
  | cons l ls ih =>
    have hcons : join ['\n'] (l :: (ls ++ [last])) = l ++ ['\n'] ++ join ['\n'] (ls ++ [last]) := by
      cases ls <;> rfl
    rw [List.cons_append, hcons, ih, terminated_cons_append]
    simp

end Ecode.Text
