-- The replacements of a patch put in line by line: no line is removed or inserted outside the
-- list (`apply_replacements` of apply-patch/src/lib.rs).
import Ecode.PatchLineEnds

namespace Ecode.apply_patch

/-! ## Line by line -/

/-- `Vec::remove`. It panics past the last line. -/
def remove (lines : List Text) (index : Nat) : Option (List Text) :=
  if index < lines.length then some (lines.eraseIdx index) else none

/-- `Vec::insert`. It panics past the end. -/
def insert (lines : List Text) (index : Nat) (line : Text) : Option (List Text) :=
  if index ≤ lines.length then some (lines.insertIdx index line) else none

/-- The loop that removes the old lines. -/
def remove_old (start_idx : Nat) : Nat → List Text → Option (List Text)
  | 0, lines => some lines
  | old_len + 1, lines => do
    let lines ← if start_idx < lines.length then remove lines start_idx else some lines
    remove_old start_idx old_len lines

/-- The loop that inserts the new lines from an index on. -/
def insert_new : Nat → List Text → List Text → Option (List Text)
  | _, [], lines => some lines
  | index, new_line :: new_segment, lines => do
    let lines ← insert lines index new_line
    insert_new (index + 1) new_segment lines

/-- One turn of the loop of `apply_replacements`. -/
def apply_replacement (r : Replacement) (lines : List Text) : Option (List Text) := do
  let lines ← remove_old r.start_index r.old_len lines
  insert_new r.start_index r.new_lines lines

/-- `apply_replacements` with its loops. It has no lines where a call panics. -/
def apply_line_by_line (lines : List Text) (replacements : List Replacement) :
    Option (List Text) :=
  replacements.foldrM apply_replacement lines

variable {lines : List Text}

/-- Lines are removed as long as there are some. -/
theorem remove_old_eq (start_idx old_len : Nat) (lines : List Text) :
    remove_old start_idx old_len lines =
      some (lines.take start_idx ++ lines.drop (start_idx + old_len)) := by
  induction old_len generalizing lines with
  | zero => simp [remove_old]
  | succ old_len ih =>
    unfold remove_old remove
    split_ifs with hin
    · have hlen : (lines.take start_idx).length = start_idx := by
        rw [List.length_take]
        omega
      have htake : (lines.take start_idx ++ lines.drop (start_idx + 1)).take start_idx =
          lines.take start_idx := by
        rw [List.take_append_of_le_length hlen.ge, List.take_take, min_self]
      have hdrop : (lines.take start_idx ++ lines.drop (start_idx + 1)).drop
          (start_idx + old_len) = lines.drop (start_idx + (old_len + 1)) := by
        rw [List.drop_append, List.drop_eq_nil_of_le (by omega), hlen, List.drop_drop,
          List.nil_append]
        congr 1
        omega
      have hrest := ih (lines.eraseIdx start_idx)
      rw [List.eraseIdx_eq_take_drop_succ, htake, hdrop] at hrest
      rw [List.eraseIdx_eq_take_drop_succ]
      exact hrest
    · have hrest := ih lines
      rw [List.drop_eq_nil_of_le (show lines.length ≤ start_idx + old_len by omega)] at hrest
      rw [List.drop_eq_nil_of_le (show lines.length ≤ start_idx + (old_len + 1) by omega)]
      exact hrest

theorem insert_append (before after : List Text) (line : Text) :
    insert (before ++ after) before.length line = some (before ++ line :: after) := by
  unfold insert
  rw [if_pos (by simp)]
  congr 1
  induction before with
  | nil => rfl
  | cons b before ih =>
    rw [List.cons_append, List.length_cons, List.insertIdx_succ_cons, ih, List.cons_append]

/-- Lines are inserted one behind the other. -/
theorem insert_new_append (before new_segment after : List Text) :
    insert_new before.length new_segment (before ++ after) =
      some (before ++ new_segment ++ after) := by
  induction new_segment generalizing before with
  | nil => simp [insert_new]
  | cons new_line new_segment ih =>
    have hrest := ih (before ++ [new_line])
    simp only [List.length_append, List.length_singleton, List.append_assoc,
      List.singleton_append] at hrest
    unfold insert_new
    rw [insert_append, Option.bind_eq_bind, Option.bind_some, hrest, List.append_assoc,
      List.cons_append]

theorem insert_new_eq (index : Nat) (new_segment lines : List Text) :
    insert_new index new_segment lines = insert_lines lines index new_segment := by
  by_cases hin : index ≤ lines.length
  · have hlen : (lines.take index).length = index := by
      rw [List.length_take]
      omega
    have happend := insert_new_append (lines.take index) new_segment (lines.drop index)
    rw [hlen, List.take_append_drop] at happend
    rw [happend, insert_lines, if_pos (.inr hin)]
  · cases new_segment with
    | nil => simp [insert_new, insert_lines]
    | cons new_line new_segment =>
      unfold insert_new insert insert_lines
      rw [if_neg hin, if_neg (by simpa using hin)]
      rfl

theorem apply_replacement_eq (r : Replacement) (lines : List Text) :
    apply_replacement r lines =
      insert_lines (lines.take r.start_index ++ lines.drop (r.start_index + r.old_len))
        r.start_index r.new_lines := by
  unfold apply_replacement
  rw [remove_old_eq, Option.bind_eq_bind, Option.bind_some, insert_new_eq]

/-- The loops do what the replacements of whole regions do. -/
theorem apply_line_by_line_eq (lines : List Text) (replacements : List Replacement) :
    apply_line_by_line lines replacements = apply_replacements lines replacements := by
  induction replacements with
  | nil => rfl
  | cons r rs ih =>
    have hcons : apply_line_by_line lines (r :: rs) =
        apply_line_by_line lines rs >>= apply_replacement r := List.foldrM_cons
    rw [hcons, ih, apply_replacements]
    congr 1
    funext later
    exact apply_replacement_eq r later

/-! ## Bounds -/

/-- A region that begins inside the list can be replaced, and the list still reaches its
start. -/
theorem apply_replacement_of_le {r : Replacement} (h : r.start_index ≤ lines.length) :
    ∃ out, apply_replacement r lines = some out ∧ r.start_index ≤ out.length := by
  have hlen : (lines.take r.start_index).length = r.start_index := by
    rw [List.length_take]
    omega
  have hinsert := insert_lines_append (lines.take r.start_index) r.new_lines
    (lines.drop (r.start_index + r.old_len))
  rw [hlen] at hinsert
  rw [apply_replacement_eq, hinsert]
  refine ⟨_, rfl, ?_⟩
  rw [List.length_append, List.length_append, hlen]
  omega

/-- From the last replacement to the first, the list reaches the start of each. -/
theorem apply_line_by_line_of_sorted {replacements : List Replacement}
    (hsorted : replacements.Pairwise fun a b => a.start_index ≤ b.start_index)
    (hrange : ∀ r ∈ replacements, r.start_index ≤ lines.length) :
    ∃ out, apply_line_by_line lines replacements = some out ∧
      ∀ k, (∀ r ∈ replacements, k ≤ r.start_index) → k ≤ lines.length → k ≤ out.length := by
  induction replacements with
  | nil => exact ⟨lines, rfl, fun k _ hk => hk⟩
  | cons r rs ih =>
    rw [List.pairwise_cons] at hsorted
    rw [List.forall_mem_cons] at hrange
    obtain ⟨later, hlater, hreach⟩ := ih hsorted.2 hrange.2
    have hstart := hreach r.start_index hsorted.1 hrange.1
    obtain ⟨out, hout, hlen⟩ := apply_replacement_of_le hstart
    refine ⟨out, ?_, ?_⟩
    · have hcons : apply_line_by_line lines (r :: rs) =
          apply_line_by_line lines rs >>= apply_replacement r := List.foldrM_cons
      rw [hcons, hlater, Option.bind_eq_bind, Option.bind_some, hout]
    · intro k hk _
      exact (hk r List.mem_cons_self).trans hlen

/-- When the replacements are computed, no line is removed or inserted outside the list, also
when their regions overlap. -/
theorem replacements_stay_in_bounds (lines : List Text) (path : Path)
    (chunks : List UpdateFileChunk) (sorted : List Replacement)
    (h : compute_replacements lines path chunks = .ok sorted) :
    ∃ out, apply_line_by_line lines sorted = some out := by
  have hrange : ∀ r ∈ sorted, r.start_index ≤ lines.length := by
    intro r hr
    exact (Nat.le_add_right _ _).trans (compute_replacements_range h r hr)
  obtain ⟨out, hout, -⟩ := apply_line_by_line_of_sorted (compute_replacements_sorted h) hrange
  exact ⟨out, hout⟩

/-- The second chunk is placed by its end before the first one, over the same line. -/
theorem overlapping_regions_stay_in_bounds :
    ∃ out, apply_line_by_line [['a'], ['b']] [⟨0, 2, []⟩, ⟨1, 1, [['B']]⟩] = some out :=
  replacements_stay_in_bounds [['a'], ['b']] (Path.of_text ['f'])
    [⟨none, [['b']], [['B']], false⟩, ⟨none, [['a'], ['b']], [], true⟩]
    [⟨0, 2, []⟩, ⟨1, 1, [['B']]⟩] (by decide)

end Ecode.apply_patch
