-- The text of an updated file (apply-patch/src/lib.rs): its lines with a line feed after each,
-- and the blank line that is lost at its end.
import Ecode.PatchRegions
import Ecode.TextLines

namespace Ecode.apply_patch

/-! ## Lines and their text -/

theorem normalize_line_ending_eq_self {l : Text} (h : l.getLast? ≠ some '\r') :
    normalize_line_ending l = l := by
  unfold normalize_line_ending
  rw [Text.strip_suffix_singleton h]
  rfl

/-- The lines of a file are what it is made of. -/
theorem original_lines_of_terminated {ls : List Text}
    (h : ∀ l ∈ ls, '\n' ∉ l ∧ l.getLast? ≠ some '\r') :
    original_lines_of (Text.terminated ls) = ls := by
  have hself : ls.map normalize_line_ending = ls := by
    rw [List.map_congr_left fun l hl => normalize_line_ending_eq_self (h l hl).2, List.map_id']
  have hmap : (ls ++ [[]]).map normalize_line_ending = ls ++ [[]] := by
    rw [List.map_append, hself]
    rfl
  unfold original_lines_of
  rw [← List.append_nil (Text.terminated ls),
    Text.split_terminated (fun l hl => (h l hl).1) List.not_mem_nil, hmap]
  simp

/-- The new contents from the lines after the replacements. -/
theorem new_contents_of_eq {path : Path} {chunks : List UpdateFileChunk} {contents new : Text}
    {sorted : List Replacement}
    (hsorted : compute_replacements (original_lines_of contents) path chunks = .ok sorted)
    (h : new_contents_of path chunks contents = .ok new) :
    ∃ out, apply_replacements (original_lines_of contents) sorted = some out ∧
      new = (if out.getLast? = some [] then out.dropLast else out).flatMap
        (· ++ line_ending_of contents) := by
  unfold new_contents_of at h
  dsimp only at h
  rw [hsorted] at h
  dsimp only [bind, Except.bind, Except.mapError] at h
  cases hout : apply_replacements (original_lines_of contents) sorted with
  | none =>
    rw [hout] at h
    cases h
  | some out =>
    rw [hout] at h
    dsimp only at h
    refine ⟨out, rfl, ?_⟩
    cases h
    split
    · next hblank =>
      rw [← Text.join_append_empty, dropLast_append_empty hblank]
    · rw [Text.join_append_empty]

/-! ## What the chunks say -/

theorem line_ending_of_terminated {ls : List Text}
    (h : ∀ l ∈ ls, '\n' ∉ l ∧ l.getLast? ≠ some '\r') :
    line_ending_of (Text.terminated ls) = ['\n'] := by
  have hnone : ¬ Text.contains (Text.terminated ls ++ []) "\r\n".toList = true := by
    rw [Text.contains_crlf_iff (fun l hl => (h l hl).1) List.not_mem_nil]
    rintro ⟨l, hl, hlast⟩
    exact (h l hl).2 hlast
  rw [List.append_nil] at hnone
  unfold line_ending_of
  rw [if_neg hnone]
  rfl

/-- The new contents are the lines of the file with the regions of the chunks replaced, each line
with a line feed behind it. -/
def ReplacesRegions (lines : List Text) (chunks : List UpdateFileChunk)
    (sorted : List Replacement) (new : Text) : Prop :=
  (∃ rs, sorted.Perm rs ∧ List.Forall₂ Replacement.Carries rs chunks) ∧
    ∃ out, Patched 0 lines sorted out ∧ new = Text.terminated out

/-- When the replacements are computed for a file of lines that each end with a line feed, the new
contents are these lines with each region replaced exactly when the regions are apart and the
lines do not end with a blank one then. -/
theorem new_contents_replace_regions_iff (path : Path) (chunks : List UpdateFileChunk)
    (lines : List Text) (sorted : List Replacement) (new : Text)
    (hlines : ∀ l ∈ lines, '\n' ∉ l ∧ l.getLast? ≠ some '\r')
    (hsorted : compute_replacements lines path chunks = .ok sorted)
    (h : new_contents_of path chunks (Text.terminated lines) = .ok new) :
    ReplacesRegions lines chunks sorted new ↔
      sorted.Pairwise Replacement.Before ∧
        ∀ out, Patched 0 lines sorted out → out.getLast? ≠ some [] := by
  have horiginal := original_lines_of_terminated hlines
  rw [← horiginal] at hsorted
  obtain ⟨out, hout, hnew⟩ := new_contents_of_eq hsorted h
  rw [horiginal] at hsorted hout
  rw [line_ending_of_terminated hlines] at hnew
  have huniq : ∀ out', Patched 0 lines sorted out' → out' = out := fun out' hout' =>
    Option.some.inj (hout'.apply_all.symm.trans hout)
  constructor
  · rintro ⟨-, out', hout', hnew'⟩
    obtain rfl := huniq out' hout'
    refine ⟨hout'.pairwise, ?_⟩
    intro out'' hout'' hblank
    rw [huniq out'' hout''] at hblank
    rw [if_pos hblank] at hnew
    -- the line feed of the blank line is missing
    have hlength := congrArg List.length (hnew.symm.trans hnew')
    rw [← dropLast_append_empty hblank] at hlength
    simp [Text.terminated] at hlength
  · rintro ⟨hbefore, hlast⟩
    obtain ⟨out', hout'⟩ := exists_patched_all hbefore (compute_replacements_range hsorted)
    obtain rfl := huniq out' hout'
    rw [if_neg (hlast out' hout')] at hnew
    obtain ⟨rs, hrs, rfl⟩ := compute_replacements_eq_ok hsorted
    exact ⟨⟨rs, List.perm_insertionSort _ rs, replacements_from_carry hrs⟩, out', hout', hnew⟩

/-- One of two lines is replaced. -/
theorem replaced_line_is_in_new_contents :
    ReplacesRegions [['a'], ['b']] [⟨none, [['a']], [['A']], false⟩] [⟨0, 1, [['A']]⟩]
      ['A', '\n', 'b', '\n'] := by
  refine (new_contents_replace_regions_iff (Path.of_text ['f'])
    [⟨none, [['a']], [['A']], false⟩] [['a'], ['b']] [⟨0, 1, [['A']]⟩] ['A', '\n', 'b', '\n']
    (by decide) (by decide) (by decide)).mpr ⟨by simp, ?_⟩
  intro out hout
  have hvalue : apply_replacements [['a'], ['b']] [⟨0, 1, [['A']]⟩] = some [['A'], ['b']] := by
    decide
  obtain rfl := Option.some.inj (hvalue.symm.trans hout.apply_all)
  decide

/-- A blank line at the end of the file is lost when another line is replaced. -/
theorem blank_last_line_is_lost :
    ¬ ∀ (path : Path) (chunks : List UpdateFileChunk) (lines : List Text)
      (sorted : List Replacement) (new : Text),
      (∀ l ∈ lines, '\n' ∉ l ∧ l.getLast? ≠ some '\r') →
      compute_replacements lines path chunks = .ok sorted →
      new_contents_of path chunks (Text.terminated lines) = .ok new →
        ReplacesRegions lines chunks sorted new := by
  intro h
  obtain ⟨-, out, hout, hnew⟩ := h (Path.of_text ['f']) [⟨none, [['a']], [['A']], false⟩]
    [['a'], []] [⟨0, 1, [['A']]⟩] ['A', '\n'] (by decide) (by decide) (by decide)
  have hvalue : apply_replacements [['a'], []] [⟨0, 1, [['A']]⟩] = some [['A'], []] := by
    decide
  obtain rfl := Option.some.inj (hvalue.symm.trans hout.apply_all)
  exact absurd hnew (by decide)

end Ecode.apply_patch
