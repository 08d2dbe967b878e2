-- A transcript cut into chunks for the checkpoint summary (`chunk_text` of
-- code-auto-drive-core/src/auto_compact.rs).
import Ecode.Truncate

namespace Ecode.auto_compact

open truncate (is_char_boundary)

def MAX_TRANSCRIPT_BYTES : Nat := 32000

/-- `text[start..end]`. Outside the text and inside a character it panics. -/
def slice (text : Text) (start stop : Nat) : Option Text := do
  let upto ← Text.cut stop text
  let parts ← Text.cut start upto.1
  some parts.2

/-- The loop that backs up to a character boundary. -/
def back_up (text : Text) (start : Nat) : Nat → Nat
  | 0 => 0
  | stop + 1 =>
    if start < stop + 1 ∧ !is_char_boundary text (stop + 1) then back_up text start stop
    else stop + 1

/-- The end of the chunk that begins at `start`. -/
def chunk_end (limit : Nat) (text : Text) (start : Nat) : Option Nat :=
  let len := Text.len text
  let stop := min (start + limit) len
  if stop < len then
    let stop := back_up text start stop
    if stop = start then do
      let rest ← slice text start len
      some (start + (rest.head?.map Char.utf8Size).getD (len - start))
    else some stop
  else some stop

/-- The loop of `chunk_text`, with `fuel` turns. There are no chunks where it panics or has not
ended. -/
def chunk_loop (limit : Nat) (text : Text) : Nat → Nat → Option (List Text)
  | 0, start => if start < Text.len text then none else some []
  | fuel + 1, start =>
    if start < Text.len text then do
      let stop ← chunk_end limit text start
      if stop ≤ start then some []
      else do
        let chunk ← slice text start stop
        let chunks ← chunk_loop limit text fuel stop
        some (chunk :: chunks)
    else some []

def chunk_text (text : Text) : Option (List Text) :=
  if text = [] then some [] else chunk_loop MAX_TRANSCRIPT_BYTES text (Text.len text) 0

variable {limit start stop : Nat} {text a b : Text}

/-! ## One chunk -/

theorem back_up_le : back_up text start stop ≤ stop := by
  induction stop with
  | zero => exact le_rfl
  | succ stop ih =>
    unfold back_up
    split_ifs
    · omega
    · exact le_rfl

/-- It stops at the last boundary, or at the start. -/
theorem back_up_ge {k : Nat} (hk : is_char_boundary text k = true) (hstart : start ≤ k)
    (hstop : k ≤ stop) : k ≤ back_up text start stop := by
  induction stop with
  | zero => exact hstop
  | succ stop ih =>
    unfold back_up
    split_ifs with h
    · apply ih
      have hne : k ≠ stop + 1 := by
        rintro rfl
        simp [hk] at h
      omega
    · exact hstop

theorem back_up_boundary (h : start < back_up text start stop) :
    is_char_boundary text (back_up text start stop) = true := by
  induction stop with
  | zero => exact absurd h (Nat.not_lt_zero start)
  | succ stop ih =>
    unfold back_up at h ⊢
    split_ifs at h ⊢ with hback
    · exact ih h
    · have hboth : ¬ (is_char_boundary text (stop + 1) = false) := by
        intro hfalse
        exact hback ⟨h, by simp [hfalse]⟩
      simpa using hboth

/-- A slice between two boundaries is there. -/
theorem slice_spec (hstart : Text.cut start text = some (a, b))
    (hstop : is_char_boundary text stop = true) (hle : start ≤ stop) :
    ∃ chunk rest, slice text start stop = some chunk ∧ b = chunk ++ rest ∧
      Text.cut stop text = some (a ++ chunk, rest) ∧ start + Text.len chunk = stop := by
  obtain ⟨⟨upto, rest⟩, hcut⟩ := Option.isSome_iff_exists.mp hstop
  have hlen := (Text.cut_len hcut).1
  have htext : upto ++ rest = text := Text.cut_append hcut
  dsimp only at hlen
  -- The start lies in the part before the end.
  have hpart := Text.cut_append_left (show start ≤ Text.len upto by omega) rest
  rw [htext, hstart] at hpart
  obtain ⟨⟨before, chunk⟩, hchunk, hparts⟩ := Option.map_eq_some_iff.mp hpart.symm
  obtain ⟨rfl, rfl⟩ := Prod.mk.inj hparts
  have hupto : before ++ chunk = upto := Text.cut_append hchunk
  have hbefore := (Text.cut_len hchunk).1
  refine ⟨chunk, rest, ?_, rfl, ?_, ?_⟩
  · unfold slice
    simp [hcut, hchunk]
  · rw [hcut, hupto]
  · rw [← hupto, Text.len_append] at hlen
    dsimp only at hbefore
    omega

/-- The end of a chunk is a boundary behind its start, within the limit. -/
theorem chunk_end_spec (hlimit : 4 ≤ limit) (hstart : Text.cut start text = some (a, b))
    (hb : b ≠ []) :
    ∃ stop, chunk_end limit text start = some stop ∧ start < stop ∧ stop ≤ start + limit ∧
      is_char_boundary text stop = true := by
  obtain ⟨c, b, rfl⟩ := List.exists_cons_of_ne_nil hb
  obtain ⟨hbefore, hlen⟩ := Text.cut_len hstart
  have hsize := c.utf8Size_le_four
  have hpos := c.utf8Size_pos
  dsimp only at hbefore hlen
  rw [Text.len_cons] at hlen
  unfold chunk_end
  dsimp only
  split_ifs with hmore hback
  · -- The first character ends within the limit, so the chunk is not empty.
    have hnext : is_char_boundary text (start + c.utf8Size) = true := by
      have htext := Text.cut_append hstart
      dsimp only at htext
      rw [← htext, ← hbefore, truncate.is_char_boundary_append_right]
      unfold is_char_boundary
      rw [← Nat.add_zero c.utf8Size, Text.cut_cons, Text.cut_zero]
      rfl
    have hge : start + c.utf8Size ≤ back_up text start (min (start + limit) (Text.len text)) :=
      back_up_ge hnext (by omega) (by omega)
    omega
  · have hhere : is_char_boundary text start = true := by
      unfold is_char_boundary
      rw [hstart]
      rfl
    have hge : start ≤ back_up text start (min (start + limit) (Text.len text)) :=
      back_up_ge hhere le_rfl (by omega)
    have hle : back_up text start (min (start + limit) (Text.len text)) ≤
        min (start + limit) (Text.len text) := back_up_le
    refine ⟨_, rfl, by omega, by omega, back_up_boundary (by omega)⟩
  · refine ⟨_, rfl, by omega, by omega, ?_⟩
    rw [show min (start + limit) (Text.len text) = Text.len text by omega]
    exact truncate.is_char_boundary_len text

/-! ## The chunks -/

/-- Chunks that are none of them empty or longer than the limit. -/
def WithinLimit (limit : Nat) (chunks : List Text) : Prop :=
  ∀ chunk ∈ chunks, chunk ≠ [] ∧ Text.len chunk ≤ limit

/-- From a boundary on, the loop ends and its chunks are what is left of the text. -/
theorem chunk_loop_spec (hlimit : 4 ≤ limit) {fuel : Nat}
    (hstart : Text.cut start text = some (a, b)) (hfuel : Text.len b ≤ fuel) :
    ∃ chunks, chunk_loop limit text fuel start = some chunks ∧ chunks.flatten = b ∧
      WithinLimit limit chunks := by
  induction fuel generalizing start a b with
  | zero =>
    have hlen := (Text.cut_len hstart)
    have hb : b = [] := Text.len_eq_zero.mp (Nat.le_zero.mp hfuel)
    subst hb
    refine ⟨[], ?_, rfl, by simp [WithinLimit]⟩
    unfold chunk_loop
    rw [if_neg]
    simp only [Text.len, List.map_nil, List.sum_nil] at hlen ⊢
    omega
  | succ fuel ih =>
    have hlen := (Text.cut_len hstart)
    dsimp only at hlen
    unfold chunk_loop
    by_cases hb : b = []
    · subst hb
      refine ⟨[], ?_, rfl, by simp [WithinLimit]⟩
      have hnil : Text.len [] = 0 := rfl
      rw [if_neg (by omega)]
    · have hmore : 0 < Text.len b := by
        have hne := mt Text.len_eq_zero.mp hb
        omega
      obtain ⟨stop, hend, hlt, hle, hboundary⟩ := chunk_end_spec hlimit hstart hb
      obtain ⟨chunk, rest, hslice, rfl, hcut, hsum⟩ := slice_spec hstart hboundary hlt.le
      rw [Text.len_append] at hfuel
      obtain ⟨chunks, hloop, hflatten, hgood⟩ := ih hcut (by omega)
      refine ⟨chunk :: chunks, ?_, by simp [hflatten], ?_⟩
      · rw [if_pos (by omega), hend]
        simp [hlt, hslice, hloop]
      · unfold WithinLimit at hgood ⊢
        rw [List.forall_mem_cons]
        refine ⟨⟨?_, by omega⟩, hgood⟩
        rintro rfl
        have hnil : Text.len [] = 0 := rfl
        omega

/-- Every text is cut into chunks: the loop ends, no slice is inside a character, and the chunks
are the text, none empty and none longer than the limit. -/
theorem chunk_text_partitions (text : Text) :
    ∃ chunks, chunk_text text = some chunks ∧ chunks.flatten = text ∧
      WithinLimit MAX_TRANSCRIPT_BYTES chunks := by
  unfold chunk_text
  split_ifs with hempty
  · exact ⟨[], rfl, hempty.symm, by simp [WithinLimit]⟩
  · exact chunk_loop_spec (by decide) (Text.cut_zero text) le_rfl

end Ecode.auto_compact
