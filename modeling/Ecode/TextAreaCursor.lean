-- The cursor of the composer over runs of its operations: it stays on a character boundary of the
-- text, so that no slice of the text panics.
import Ecode.TextArea

namespace Ecode.textarea

open truncate (is_char_boundary)

/-! ## Boundaries -/

variable {t : Text} {p : Char → Bool} {i n : Nat}

theorem boundary_iff : is_char_boundary t n = true ↔ ∃ a b, t = a ++ b ∧ Text.len a = n := by
  unfold is_char_boundary
  constructor
  · intro h
    obtain ⟨parts, hparts⟩ := Option.isSome_iff_exists.mp h
    exact ⟨parts.1, parts.2, (Text.cut_append hparts).symm, (Text.cut_len hparts).1⟩
  · rintro ⟨a, b, rfl, rfl⟩
    rw [Text.cut_append_left le_rfl, Text.cut_self]
    rfl

theorem boundary_append (a b : Text) : is_char_boundary (a ++ b) (Text.len a) = true :=
  boundary_iff.mpr ⟨a, b, rfl, rfl⟩

theorem cut_at (a b : Text) : Text.cut (Text.len a) (a ++ b) = some (a, b) := by
  rw [Text.cut_append_left le_rfl, Text.cut_self]
  rfl

theorem boundary_le (h : is_char_boundary t n = true) : n ≤ Text.len t := by
  obtain ⟨a, b, rfl, rfl⟩ := boundary_iff.mp h
  rw [Text.len_append]
  omega

theorem boundary_zero (t : Text) : is_char_boundary t 0 = true :=
  boundary_append [] t

theorem boundary_len (t : Text) : is_char_boundary t (Text.len t) = true :=
  truncate.is_char_boundary_len t

/-- Two boundaries cut a text in three. -/
theorem boundaries_split {m : Nat} (hn : is_char_boundary t n = true)
    (hm : is_char_boundary t m = true) (hle : n ≤ m) :
    ∃ a b c, t = a ++ b ++ c ∧ Text.len a = n ∧ Text.len (a ++ b) = m := by
  obtain ⟨upto, c, rfl, rfl⟩ := boundary_iff.mp hm
  rw [truncate.is_char_boundary_append_left hle] at hn
  obtain ⟨a, b, rfl, rfl⟩ := boundary_iff.mp hn
  exact ⟨a, b, c, rfl, rfl, rfl⟩

theorem find_eq_some (h : find p t = some i) :
    ∃ a c b, t = a ++ c :: b ∧ Text.len a = i ∧ p c = true := by
  induction t generalizing i with
  | nil => cases h
  | cons d t ih =>
    unfold find at h
    split_ifs at h with hd
    · obtain rfl := Option.some.inj h
      exact ⟨[], d, t, rfl, rfl, hd⟩
    · obtain ⟨j, hj, rfl⟩ := Option.map_eq_some_iff.mp h
      obtain ⟨a, c, b, rfl, rfl, hc⟩ := ih hj
      exact ⟨d :: a, c, b, rfl, by rw [Text.len_cons, Nat.add_comm], hc⟩

theorem rfind_eq_some (h : rfind p t = some i) :
    ∃ a c b, t = a ++ c :: b ∧ Text.len a = i ∧ p c = true := by
  induction t generalizing i with
  | nil => cases h
  | cons d t ih =>
    unfold rfind at h
    cases hrest : rfind p t with
    | some j =>
      rw [hrest] at h
      obtain rfl := Option.some.inj h
      obtain ⟨a, c, b, rfl, rfl, hc⟩ := ih hrest
      exact ⟨d :: a, c, b, rfl, by rw [Text.len_cons, Nat.add_comm], hc⟩
    | none =>
      rw [hrest] at h
      dsimp only at h
      split_ifs at h with hd
      obtain rfl := Option.some.inj h
      exact ⟨[], d, t, rfl, rfl, hd⟩

theorem len_newline {c : Char} (h : is_newline c = true) : c.utf8Size = 1 := by
  obtain rfl : c = '\n' := by simpa [is_newline] using h
  rfl

/-! ## Valid states -/

/-- The cursor, the snapshots and the wrapped lines fit their texts. -/
structure Valid (s : TextArea) : Prop where
  cursor : is_char_boundary s.text s.cursor_pos = true
  undo : ∀ snapshot ∈ s.undo_stack, is_char_boundary snapshot.text snapshot.cursor_pos = true
  lines : ∀ cache, s.wrap_cache = some cache → ∀ line ∈ cache.lines,
    line.1 ≤ line.2 - 1 ∧ is_char_boundary s.text line.1 = true ∧
      is_char_boundary s.text (line.2 - 1) = true

variable {s s' : TextArea} {pos start stop : Nat}

theorem valid_new : Valid .new :=
  ⟨rfl, by simp [TextArea.new], by simp [TextArea.new]⟩

theorem clamp_of_boundary (h : is_char_boundary s.text pos = true) :
    s.clamp_pos_to_nearest_boundary pos = pos := by
  unfold TextArea.clamp_pos_to_nearest_boundary
  exact if_neg (Nat.not_lt.mpr (boundary_le h))

theorem min_of_boundary (h : is_char_boundary s.text pos = true) : min pos s.len = pos :=
  Nat.min_eq_left (boundary_le h)

theorem boundary_clamp_min (htext : s.text = t) (h : is_char_boundary t pos = true) :
    is_char_boundary t (s.clamp_pos_to_nearest_boundary (min pos s.len)) = true := by
  subst htext
  rw [min_of_boundary h, clamp_of_boundary h]
  exact h

namespace Valid

/-- A cursor that is put on a boundary. -/
theorem move (h : Valid s) (hpos : is_char_boundary s.text pos = true) (col : Option Nat) :
    Valid { s with cursor_pos := pos, preferred_col := col } :=
  ⟨hpos, h.undo, h.lines⟩

theorem set_cursor (h : Valid s) (hpos : is_char_boundary s.text (min pos s.len) = true) :
    Valid (s.set_cursor pos) := by
  unfold TextArea.set_cursor
  rw [clamp_of_boundary hpos]
  exact h.move hpos none

theorem set_cursor_of_boundary (h : Valid s) (hpos : is_char_boundary s.text pos = true) :
    Valid (s.set_cursor pos) :=
  h.set_cursor ((min_of_boundary hpos).symm ▸ hpos)

theorem set_text (h : Valid s) {text : Text}
    (hcursor : is_char_boundary text (min s.cursor_pos (Text.len text)) = true) :
    Valid (s.set_text text) :=
  ⟨hcursor, h.undo, fun _ hcache => by cases hcache⟩

theorem push_undo_snapshot (h : Valid s) : Valid s.push_undo_snapshot := by
  refine ⟨h.cursor, fun snapshot hsnapshot => ?_, h.lines⟩
  have hmem : snapshot ∈ s.undo_stack ++ [⟨s.text, s.cursor_pos⟩] := by
    simp only [TextArea.push_undo_snapshot, TextArea.drain_excess] at hsnapshot
    split_ifs at hsnapshot
    · exact List.mem_of_mem_drop hsnapshot
    · exact hsnapshot
  rcases List.mem_append.mp hmem with hold | hnew
  · exact h.undo snapshot hold
  · rw [List.mem_singleton.mp hnew]
    exact h.cursor

theorem undo_op (h : Valid s) : Valid s.undo := by
  unfold TextArea.undo
  cases hlast : s.undo_stack.getLast? with
  | none => exact h
  | some prev =>
    have hprev := h.undo prev (List.mem_of_getLast? hlast)
    refine ⟨?_, fun snapshot hsnapshot => ?_, fun _ hcache => by cases hcache⟩
    · dsimp only
      rw [Nat.min_eq_left (boundary_le hprev)]
      exact hprev
    · exact h.undo snapshot (List.mem_of_mem_dropLast hsnapshot)

/-- An edit of the text between a beginning and an end that stay. -/
theorem edit (h : Valid s) {a b : Text} (hpos : is_char_boundary (a ++ b) pos = true)
    (col : Option Nat) :
    Valid { s.push_undo_snapshot with
      text := a ++ b, cursor_pos := pos, wrap_cache := none, preferred_col := col } :=
  ⟨hpos, h.push_undo_snapshot.undo, fun _ hcache => by cases hcache⟩

theorem insert_str_at (h : Valid s) (hpos : is_char_boundary s.text pos = true) (text : Text) :
    ∃ s', s.insert_str_at pos text = some s' ∧ Valid s' := by
  obtain ⟨a, b, htext, rfl⟩ := boundary_iff.mp hpos
  have hcut : Text.cut (Text.len a) s.push_undo_snapshot.text = some (a, b) := by
    rw [← cut_at, ← htext]
    rfl
  have hcursor : is_char_boundary (a ++ b) s.cursor_pos = true := htext ▸ h.cursor
  unfold TextArea.insert_str_at
  dsimp only
  rw [hcut]
  refine ⟨_, rfl, h.edit ?_ none⟩
  change is_char_boundary _ (if Text.len a ≤ s.cursor_pos then s.cursor_pos + Text.len text
    else s.cursor_pos) = true
  split_ifs with hle
  · obtain ⟨k, hk⟩ := Nat.exists_eq_add_of_le hle
    have hshift : s.cursor_pos + Text.len text = Text.len (a ++ text) + k := by
      rw [Text.len_append]
      omega
    rw [hk, truncate.is_char_boundary_append_right] at hcursor
    rw [hshift, truncate.is_char_boundary_append_right]
    exact hcursor
  · have hlt : s.cursor_pos ≤ Text.len a := Nat.le_of_not_le hle
    rw [truncate.is_char_boundary_append_left hlt] at hcursor
    rw [List.append_assoc, truncate.is_char_boundary_append_left hlt]
    exact hcursor

/-- Where the cursor of a replaced range goes is a boundary of the new text. -/
theorem cursor_after_replace {a b c : Text} {cursor : Nat} (text : Text)
    (h : is_char_boundary (a ++ b ++ c) cursor = true) :
    is_char_boundary (a ++ text ++ c)
      (if cursor < Text.len a then cursor
        else if cursor ≤ Text.len (a ++ b) then Text.len a + Text.len text
        else cursor + Text.len text - Text.len b) = true := by
  split_ifs with hbefore hinside
  · rw [List.append_assoc, truncate.is_char_boundary_append_left hbefore.le] at h ⊢
    exact h
  · rw [← Text.len_append]
    exact boundary_append (a ++ text) c
  · obtain ⟨k, hk⟩ := Nat.exists_eq_add_of_le (Nat.le_of_not_le hinside)
    have hshift : cursor + Text.len text - Text.len b = Text.len (a ++ text) + k := by
      rw [hk, Text.len_append, Text.len_append]
      omega
    rw [hk, truncate.is_char_boundary_append_right] at h
    rw [hshift, truncate.is_char_boundary_append_right]
    exact h

theorem replace_range (h : Valid s) (hle : start ≤ stop)
    (hstart : is_char_boundary s.text start = true) (hstop : is_char_boundary s.text stop = true)
    (text : Text) :
    ∃ s', s.replace_range start stop text = some s' ∧ Valid s' ∧
      ∀ k ≤ start, is_char_boundary s.text k = true → is_char_boundary s'.text k = true := by
  have hfirst : min start s.push_undo_snapshot.len = start := min_of_boundary hstart
  have hlast : min stop s.push_undo_snapshot.len = stop := min_of_boundary hstop
  obtain ⟨a, b, c, htext, hlen, hlen'⟩ := boundaries_split hstart hstop hle
  have hbefore : Text.cut start s.push_undo_snapshot.text = some (a, b ++ c) := by
    rw [← hlen, ← cut_at, ← List.append_assoc, ← htext]
    rfl
  have hbehind : Text.cut stop s.push_undo_snapshot.text = some (a ++ b, c) := by
    rw [← hlen', ← cut_at, ← htext]
    rfl
  have hremoved : stop - start = Text.len b := by
    rw [← hlen, ← hlen', Text.len_append]
    omega
  unfold TextArea.replace_range
  rw [if_pos hle]
  dsimp only
  rw [hfirst, hlast, hremoved, hbefore, hbehind]
  by_cases hnothing : Text.len b = 0 ∧ Text.len text = 0
  · rw [if_pos hnothing]
    exact ⟨_, rfl, h.push_undo_snapshot, fun k _ hk => hk⟩
  · have hcursor := cursor_after_replace text (htext ▸ h.cursor)
    rw [hlen, hlen'] at hcursor
    rw [if_neg hnothing]
    refine ⟨_, rfl, ?_, fun k hk hkb => ?_⟩
    · apply h.edit (a := a ++ text) (b := c)
      exact boundary_clamp_min rfl hcursor
    · change is_char_boundary (a ++ text ++ c) k = true
      rw [htext] at hkb
      rw [List.append_assoc, truncate.is_char_boundary_append_left (hlen ▸ hk)] at hkb ⊢
      exact hkb

theorem delete_range (h : Valid s) (hle : start ≤ stop)
    (hstart : is_char_boundary s.text start = true)
    (hstop : is_char_boundary s.text stop = true) :
    ∃ s', s.replace_range start stop [] = some s' ∧ Valid s' := by
  obtain ⟨s', hs', hvalid, -⟩ := h.replace_range hle hstart hstop []
  exact ⟨s', hs', hvalid⟩

end Valid

/-! ## Lines and words -/

/-- The beginning of a line is a boundary, and so is the end of the line before it. -/
theorem beginning_of_line_spec (h : is_char_boundary s.text pos = true) :
    ∃ bol, s.beginning_of_line pos = some bol ∧ bol ≤ pos ∧
      is_char_boundary s.text bol = true ∧ is_char_boundary s.text (bol - 1) = true := by
  obtain ⟨a, b, htext, rfl⟩ := boundary_iff.mp h
  unfold TextArea.beginning_of_line
  rw [htext, cut_at]
  refine ⟨_, rfl, ?_⟩
  dsimp only
  cases hfound : rfind is_newline a with
  | none => exact ⟨Nat.zero_le _, boundary_zero _, boundary_zero _⟩
  | some i =>
    obtain ⟨x, c, y, rfl, rfl, hc⟩ := rfind_eq_some hfound
    have hlen : Text.len (x ++ [c]) = Text.len x + 1 := by
      rw [Text.len_append, Text.len_cons, len_newline hc]
      rfl
    refine ⟨?_, ?_, ?_⟩
    · have hpos := c.utf8Size_pos
      rw [Option.map_some, Option.getD_some, Text.len_append, Text.len_cons]
      omega
    · rw [Option.map_some, Option.getD_some, ← hlen]
      exact boundary_iff.mpr ⟨x ++ [c], y ++ b, by simp, rfl⟩
    · exact boundary_iff.mpr ⟨x, c :: y ++ b, by simp, rfl⟩

/-- The end of a line is a boundary, and so is the byte behind its line feed. -/
theorem end_of_line_spec (h : is_char_boundary s.text pos = true) :
    ∃ eol, s.end_of_line pos = some eol ∧ pos ≤ eol ∧ is_char_boundary s.text eol = true ∧
      is_char_boundary s.text (min (eol + 1) s.len) = true := by
  obtain ⟨a, b, htext, rfl⟩ := boundary_iff.mp h
  unfold TextArea.end_of_line TextArea.len
  rw [htext, cut_at]
  refine ⟨_, rfl, ?_⟩
  dsimp only
  cases hfound : find is_newline b with
  | none =>
    refine ⟨?_, boundary_len _, ?_⟩
    · rw [Option.map_none, Option.getD_none, Text.len_append]
      omega
    · rw [Option.map_none, Option.getD_none, Nat.min_eq_right (Nat.le_succ _)]
      exact boundary_len _
  | some i =>
    obtain ⟨x, c, y, rfl, rfl, hc⟩ := find_eq_some hfound
    have hlen : Text.len (a ++ x ++ [c]) = Text.len x + Text.len a + 1 := by
      rw [Text.len_append, Text.len_append, Text.len_cons, len_newline hc, Nat.add_comm]
      change 1 + 0 + _ = _
      omega
    have hnext : is_char_boundary (a ++ (x ++ c :: y)) (Text.len x + Text.len a + 1) = true := by
      rw [← hlen]
      exact boundary_iff.mpr ⟨a ++ x ++ [c], y, by simp, rfl⟩
    refine ⟨Nat.le_add_left _ _, ?_, ?_⟩
    · rw [Option.map_some, Option.getD_some, Nat.add_comm, ← Text.len_append]
      exact boundary_iff.mpr ⟨a ++ x, c :: y, by simp, rfl⟩
    · rw [Option.map_some, Option.getD_some, Nat.min_eq_left (boundary_le hnext)]
      exact hnext

theorem beginning_of_previous_word_spec (h : is_char_boundary s.text s.cursor_pos = true) :
    ∃ start, s.beginning_of_previous_word = some start ∧ start ≤ s.cursor_pos ∧
      is_char_boundary s.text start = true := by
  obtain ⟨a, b, htext, hcursor⟩ := boundary_iff.mp h
  unfold TextArea.beginning_of_previous_word
  rw [← hcursor, htext, cut_at, Option.bind_eq_bind, Option.bind_some]
  dsimp only
  cases hfound : rfind (fun c => !Text.is_whitespace c) a with
  | none => exact ⟨0, rfl, Nat.zero_le _, boundary_zero _⟩
  | some first_non_ws =>
    obtain ⟨x, c, y, rfl, rfl, -⟩ := rfind_eq_some hfound
    have hparts : x ++ c :: y ++ b = x ++ (c :: y ++ b) := by simp
    dsimp only
    rw [hparts, cut_at, Option.bind_eq_bind, Option.bind_some]
    dsimp only
    cases hspace : rfind Text.is_whitespace x with
    | none => exact ⟨0, rfl, Nat.zero_le _, boundary_zero _⟩
    | some i =>
      obtain ⟨u, d, v, rfl, rfl, -⟩ := rfind_eq_some hspace
      have hrest : u ++ d :: v ++ (c :: y ++ b) = u ++ (d :: v ++ (c :: y ++ b)) := by simp
      dsimp only
      rw [hrest, cut_at]
      refine ⟨Text.len u + d.utf8Size, rfl, ?_, ?_⟩
      · simp only [Text.len_append, Text.len_cons]
        omega
      · have hlen : Text.len (u ++ [d]) = Text.len u + d.utf8Size := by
          rw [Text.len_append, Text.len_cons]
          rfl
        rw [← hlen]
        exact boundary_iff.mpr ⟨u ++ [d], v ++ (c :: y ++ b), by simp, rfl⟩

theorem end_of_next_word_spec (h : is_char_boundary s.text s.cursor_pos = true) :
    ∃ stop, s.end_of_next_word = some stop ∧ s.cursor_pos ≤ stop ∧
      is_char_boundary s.text stop = true := by
  obtain ⟨a, b, htext, hcursor⟩ := boundary_iff.mp h
  have hle := boundary_le h
  unfold TextArea.end_of_next_word TextArea.len
  rw [htext] at hle ⊢
  rw [← hcursor] at hle ⊢
  rw [cut_at, Option.bind_eq_bind, Option.bind_some]
  dsimp only
  cases hfound : find (fun c => !Text.is_whitespace c) b with
  | none => exact ⟨_, rfl, hle, boundary_len _⟩
  | some first_non_ws =>
    obtain ⟨x, c, y, rfl, rfl, -⟩ := find_eq_some hfound
    have hparts : a ++ (x ++ c :: y) = a ++ x ++ c :: y := by simp
    dsimp only
    rw [hparts, ← Text.len_append, cut_at, Option.bind_some]
    dsimp only
    cases hspace : find Text.is_whitespace (c :: y) with
    | none => exact ⟨_, rfl, hparts ▸ hle, boundary_len _⟩
    | some i =>
      obtain ⟨u, d, v, hrest, rfl, -⟩ := find_eq_some hspace
      refine ⟨_, rfl, ?_, ?_⟩
      · rw [Text.len_append]
        omega
      · rw [hrest, ← Text.len_append]
        exact boundary_iff.mpr ⟨a ++ x ++ u, d :: v, by simp, rfl⟩

/-! ## Graphemes -/

/-- What the crates document: boundaries of graphemes are boundaries of characters, the graphemes
of a text make it up, and wrapped lines are slices of the text. -/
structure Documented (libs : TextLibs) : Prop where
  prev : ∀ text pos, is_char_boundary text pos = true → 0 < pos →
    ∃ b, libs.prev_boundary text pos = .ok (some b) ∧ b < pos ∧ is_char_boundary text b = true
  next : ∀ text pos, is_char_boundary text pos = true → pos < Text.len text →
    ∃ b, libs.next_boundary text pos = .ok (some b) ∧ pos < b ∧ is_char_boundary text b = true
  graphemes : ∀ text, (libs.graphemes text).flatten = text
  wrap : ∀ text width, 0 < width → ∀ line ∈ libs.wrap text width,
    line.1 ≤ line.2 ∧ is_char_boundary text line.1 = true ∧ is_char_boundary text line.2 = true

variable {libs : TextLibs} (hlibs : Documented libs)
include hlibs

theorem prev_atomic_boundary_spec (h : is_char_boundary s.text pos = true) :
    s.prev_atomic_boundary libs pos ≤ pos ∧
      is_char_boundary s.text (s.prev_atomic_boundary libs pos) = true := by
  unfold TextArea.prev_atomic_boundary
  split_ifs with hzero
  · exact ⟨Nat.zero_le _, boundary_zero _⟩
  · obtain ⟨b, hb, hlt, hboundary⟩ := hlibs.prev s.text pos h (Nat.pos_of_ne_zero hzero)
    rw [hb]
    exact ⟨hlt.le, hboundary⟩

theorem next_atomic_boundary_spec (h : is_char_boundary s.text pos = true) :
    pos ≤ s.next_atomic_boundary libs pos ∧
      is_char_boundary s.text (s.next_atomic_boundary libs pos) = true := by
  unfold TextArea.next_atomic_boundary
  split_ifs with hend
  · exact ⟨boundary_le h, boundary_len _⟩
  · obtain ⟨b, hb, hlt, hboundary⟩ := hlibs.next s.text pos h (Nat.lt_of_not_le hend)
    rw [hb]
    exact ⟨hlt.le, hboundary⟩

theorem back_by_spec (n : Nat) (h : is_char_boundary s.text pos = true) :
    s.back_by libs n pos ≤ pos ∧ is_char_boundary s.text (s.back_by libs n pos) = true := by
  induction n generalizing pos with
  | zero => exact ⟨le_rfl, h⟩
  | succ n ih =>
    obtain ⟨hle, hboundary⟩ := prev_atomic_boundary_spec hlibs h
    unfold TextArea.back_by
    dsimp only
    split_ifs
    · exact ⟨hle, hboundary⟩
    · exact ⟨(ih hboundary).1.trans hle, (ih hboundary).2⟩

theorem forward_by_spec (n : Nat) (h : is_char_boundary s.text pos = true) :
    pos ≤ s.forward_by libs n pos ∧
      is_char_boundary s.text (s.forward_by libs n pos) = true := by
  induction n generalizing pos with
  | zero => exact ⟨le_rfl, h⟩
  | succ n ih =>
    obtain ⟨hle, hboundary⟩ := next_atomic_boundary_spec hlibs h
    unfold TextArea.forward_by
    dsimp only
    split_ifs
    · exact ⟨hle, hboundary⟩
    · exact ⟨hle.trans (ih hboundary).1, (ih hboundary).2⟩

omit hlibs in
/-- A grapheme of a line begins at a boundary of the line. -/
theorem grapheme_past_spec {target width_so_far : Nat} (before : Text) {gs : List Text}
    (h : TextArea.grapheme_past libs target width_so_far (Text.len before) gs = some i) :
    is_char_boundary (before ++ gs.flatten) i = true := by
  induction gs generalizing width_so_far before with
  | nil => cases h
  | cons g gs ih =>
    unfold TextArea.grapheme_past at h
    split_ifs at h
    · obtain rfl := Option.some.inj h
      exact boundary_append _ _
    · rw [← Text.len_append] at h
      rw [List.flatten_cons, ← List.append_assoc]
      exact ih _ h

namespace Valid

/-- The cursor goes to a grapheme of the line or to its end. -/
theorem move_to_display_col_on_line (h : Valid s) (hle : start ≤ stop)
    (hstart : is_char_boundary s.text start = true) (hstop : is_char_boundary s.text stop = true)
    (col : Nat) :
    ∃ s', s.move_to_display_col_on_line libs start stop col = some s' ∧ Valid s' := by
  obtain ⟨⟨a, b⟩, hcut⟩ := Option.isSome_iff_exists.mp hstart
  obtain ⟨line, rest, hline, rfl, -, -⟩ := auto_compact.slice_spec hcut hstop hle
  unfold TextArea.move_to_display_col_on_line
  rw [hline]
  refine ⟨_, rfl, ?_⟩
  apply h.move _ s.preferred_col
  cases hpast : TextArea.grapheme_past libs col 0 0 (libs.graphemes line) with
  | none =>
    rw [clamp_of_boundary hstop]
    exact hstop
  | some i =>
    have hi := grapheme_past_spec [] hpast
    rw [List.nil_append, hlibs.graphemes line] at hi
    have hpos : is_char_boundary s.text (start + i) = true := by
      apply truncate.boundary_of_right hcut
      rw [truncate.is_char_boundary_append_left (boundary_le hi)]
      exact hi
    dsimp only
    rw [clamp_of_boundary hpos]
    exact hpos

/-! ## Deleting -/

theorem delete_backward (h : Valid s) (n : Nat) :
    ∃ s', s.delete_backward libs n = some s' ∧ Valid s' := by
  unfold TextArea.delete_backward
  split_ifs
  · exact ⟨s, rfl, h⟩
  · obtain ⟨hle, hstart⟩ := back_by_spec hlibs n h.cursor
    exact h.delete_range hle hstart h.cursor

theorem delete_forward (h : Valid s) (n : Nat) :
    ∃ s', s.delete_forward libs n = some s' ∧ Valid s' := by
  unfold TextArea.delete_forward
  split_ifs
  · exact ⟨s, rfl, h⟩
  · obtain ⟨hle, hstop⟩ := forward_by_spec hlibs n h.cursor
    exact h.delete_range hle h.cursor hstop

omit hlibs

theorem delete_backward_word (h : Valid s) :
    ∃ s', s.delete_backward_word = some s' ∧ Valid s' := by
  obtain ⟨start, hword, hle, hstart⟩ := beginning_of_previous_word_spec h.cursor
  unfold TextArea.delete_backward_word
  rw [hword]
  exact h.delete_range hle hstart h.cursor

theorem delete_forward_word (h : Valid s) :
    ∃ s', s.delete_forward_word = some s' ∧ Valid s' := by
  obtain ⟨stop, hword, hle, hstop⟩ := end_of_next_word_spec h.cursor
  unfold TextArea.delete_forward_word
  rw [hword, Option.bind_eq_bind, Option.bind_some]
  split_ifs
  · exact h.delete_range hle h.cursor hstop
  · exact ⟨s, rfl, h⟩

theorem kill_to_end_of_line (h : Valid s) :
    ∃ s', s.kill_to_end_of_line = some s' ∧ Valid s' := by
  obtain ⟨eol, heol, hle, hboundary, hnext⟩ := end_of_line_spec h.cursor
  unfold TextArea.kill_to_end_of_line
  rw [heol, Option.bind_eq_bind, Option.bind_some]
  split_ifs with hend hmore
  · rw [Nat.min_eq_left hmore] at hnext
    exact h.delete_range (hle.trans (Nat.le_succ eol)) h.cursor hnext
  · exact ⟨s, rfl, h⟩
  · exact h.delete_range hle h.cursor hboundary

theorem kill_to_beginning_of_line (h : Valid s) :
    ∃ s', s.kill_to_beginning_of_line = some s' ∧ Valid s' := by
  obtain ⟨bol, hbol, hle, hboundary, hbefore⟩ := beginning_of_line_spec h.cursor
  unfold TextArea.kill_to_beginning_of_line
  rw [hbol, Option.bind_eq_bind, Option.bind_some]
  split_ifs
  · exact h.delete_range (Nat.sub_le bol 1) hbefore hboundary
  · exact ⟨s, rfl, h⟩
  · exact h.delete_range hle hboundary h.cursor

theorem delete_entire_line (h : Valid s) :
    ∃ s', s.delete_entire_line = some s' ∧ Valid s' := by
  obtain ⟨bol, hbol, hle, hstart, -⟩ := beginning_of_line_spec h.cursor
  obtain ⟨eol, heol, hle', hstop, -⟩ := end_of_line_spec h.cursor
  obtain ⟨s', hs', hvalid, hkept⟩ := h.replace_range (hle.trans hle') hstart hstop []
  unfold TextArea.delete_entire_line
  rw [hbol, heol]
  simp only [Option.bind_eq_bind, Option.bind_some]
  split_ifs
  · rw [hs']
    exact ⟨_, rfl, hvalid.set_cursor_of_boundary (hkept bol le_rfl hstart)⟩
  · exact ⟨_, rfl, h.set_cursor_of_boundary hstart⟩

/-! ## Moving -/

theorem move_cursor_to_beginning_of_line (h : Valid s) (up : Bool) :
    ∃ s', s.move_cursor_to_beginning_of_line up = some s' ∧ Valid s' := by
  obtain ⟨bol, hbol, -, hboundary, hbefore⟩ := beginning_of_line_spec h.cursor
  unfold TextArea.move_cursor_to_beginning_of_line
  rw [hbol, Option.bind_eq_bind, Option.bind_some]
  split_ifs with hup
  · rw [← hup.2] at hbefore
    obtain ⟨above, habove, -, hline, -⟩ := beginning_of_line_spec hbefore
    rw [habove]
    exact ⟨_, rfl, h.set_cursor_of_boundary hline⟩
  · exact ⟨_, rfl, h.set_cursor_of_boundary hboundary⟩

theorem move_cursor_to_end_of_line (h : Valid s) (down : Bool) :
    ∃ s', s.move_cursor_to_end_of_line down = some s' ∧ Valid s' := by
  obtain ⟨eol, heol, -, hboundary, hnext⟩ := end_of_line_spec h.cursor
  unfold TextArea.move_cursor_to_end_of_line
  rw [heol, Option.bind_eq_bind, Option.bind_some]
  split_ifs with hdown
  · rw [← hdown.2] at hnext
    obtain ⟨below, hbelow, -, hline, -⟩ := end_of_line_spec hnext
    rw [hbelow]
    exact ⟨_, rfl, h.set_cursor_of_boundary hline⟩
  · exact ⟨_, rfl, h.set_cursor_of_boundary hboundary⟩

theorem move_to_previous_word (h : Valid s) :
    ∃ s', s.move_to_previous_word = some s' ∧ Valid s' := by
  obtain ⟨start, hword, -, hstart⟩ := beginning_of_previous_word_spec h.cursor
  unfold TextArea.move_to_previous_word
  rw [hword]
  exact ⟨_, rfl, h.set_cursor_of_boundary hstart⟩

theorem move_to_next_word (h : Valid s) :
    ∃ s', s.move_to_next_word = some s' ∧ Valid s' := by
  obtain ⟨stop, hword, -, hstop⟩ := end_of_next_word_spec h.cursor
  unfold TextArea.move_to_next_word
  rw [hword]
  exact ⟨_, rfl, h.set_cursor_of_boundary hstop⟩

/-- A column can be read off a line that begins at the cursor or before it. -/
theorem target_col (h : Valid s) (libs : TextLibs) (hle : start ≤ s.cursor_pos)
    (hstart : is_char_boundary s.text start = true) :
    ∃ col, s.target_col libs start = some col := by
  unfold TextArea.target_col
  cases s.preferred_col with
  | some c => exact ⟨c, rfl⟩
  | none =>
    obtain ⟨⟨a, b⟩, hcut⟩ := Option.isSome_iff_exists.mp hstart
    obtain ⟨line, rest, hline, -⟩ := auto_compact.slice_spec hcut h.cursor hle
    dsimp only
    rw [hline]
    exact ⟨_, rfl⟩

include hlibs

theorem move_up_on_lines (h : Valid s) :
    ∃ s', s.move_up_on_lines libs = some s' ∧ Valid s' := by
  obtain ⟨a, b, htext, hcursor⟩ := boundary_iff.mp h.cursor
  have hcut : Text.cut s.cursor_pos s.text = some (a, b) := by
    rw [htext, ← hcursor, cut_at]
  unfold TextArea.move_up_on_lines
  rw [hcut, Option.bind_eq_bind, Option.bind_some]
  dsimp only
  cases hfound : rfind is_newline a with
  | none => exact ⟨_, rfl, h.move (boundary_zero _) none⟩
  | some prev_nl =>
    obtain ⟨x, c, y, rfl, rfl, -⟩ := rfind_eq_some hfound
    have hnl : is_char_boundary s.text (Text.len x) = true :=
      boundary_iff.mpr ⟨x, c :: y ++ b, by simp [htext], rfl⟩
    obtain ⟨bol, hbol, hle, hstart, -⟩ := beginning_of_line_spec h.cursor
    obtain ⟨col, hcol⟩ := h.target_col libs hle hstart
    obtain ⟨above, habove, hle', hline, -⟩ := beginning_of_line_spec hnl
    dsimp only
    rw [hbol, Option.bind_eq_bind, Option.bind_some, hcol, Option.bind_some, habove,
      Option.bind_some]
    exact (h.move h.cursor (some col)).move_to_display_col_on_line hlibs hle' hline hnl col

theorem move_down_on_lines (h : Valid s) :
    ∃ s', s.move_down_on_lines libs = some s' ∧ Valid s' := by
  obtain ⟨a, b, htext, hcursor⟩ := boundary_iff.mp h.cursor
  have hcut : Text.cut s.cursor_pos s.text = some (a, b) := by
    rw [htext, ← hcursor, cut_at]
  obtain ⟨bol, hbol, hle, hstart, -⟩ := beginning_of_line_spec h.cursor
  obtain ⟨col, hcol⟩ := h.target_col libs hle hstart
  unfold TextArea.move_down_on_lines
  simp only [hbol, hcol, hcut, Option.bind_eq_bind, Option.bind_some]
  cases hfound : find is_newline b with
  | none => exact ⟨_, rfl, h.move (boundary_len _) none⟩
  | some i =>
    obtain ⟨x, c, y, rfl, rfl, hc⟩ := find_eq_some hfound
    have hlen : Text.len (a ++ x ++ [c]) = Text.len x + s.cursor_pos + 1 := by
      rw [Text.len_append, Text.len_append, Text.len_cons, len_newline hc, ← hcursor]
      change _ + (1 + 0) = _
      omega
    have hline : is_char_boundary s.text (Text.len x + s.cursor_pos + 1) = true := by
      rw [← hlen]
      exact boundary_iff.mpr ⟨a ++ x ++ [c], y, by simp [htext], rfl⟩
    obtain ⟨eol, heol, hle', hend, -⟩ := end_of_line_spec hline
    dsimp only
    rw [heol, Option.bind_some]
    exact (h.move h.cursor (some col)).move_to_display_col_on_line hlibs hle' hline hend col

omit hlibs in
theorem wrapped_line_at {lines : List (Nat × Nat)} {idx : Nat}
    (h : TextArea.wrapped_line_index_by_start lines pos = some idx) :
    ∃ line, lines[idx]? = some line ∧ line.1 ≤ pos := by
  unfold TextArea.wrapped_line_index_by_start at h
  dsimp only at h
  split_ifs at h with hnone
  obtain rfl := Option.some.inj h
  have hinit := List.takeWhile_prefix (l := lines) fun line => decide (line.1 ≤ pos)
  have hbefore : ∀ line ∈ lines.takeWhile fun line => line.1 ≤ pos, line.1 ≤ pos := by
    intro line hline
    simpa using List.mem_takeWhile_imp hline
  generalize (lines.takeWhile fun line => line.1 ≤ pos) = before at hinit hbefore hnone ⊢
  have hlt : before.length - 1 < before.length := by omega
  refine ⟨before.get ⟨_, hlt⟩, ?_, hbefore _ (List.get_mem _ _)⟩
  exact List.prefix_iff_getElem?.mp hinit _ hlt

theorem move_up_on_wrapped (h : Valid s) {cache : WrapCache} (hcache : s.wrap_cache = some cache)
    {idx : Nat} (hidx : TextArea.wrapped_line_index_by_start cache.lines s.cursor_pos = some idx) :
    ∃ s', s.move_up_on_wrapped libs cache.lines idx = some s' ∧ Valid s' := by
  obtain ⟨cur, hcur, hstart⟩ := wrapped_line_at hidx
  obtain ⟨-, hboundary, -⟩ := h.lines cache hcache cur (List.mem_of_getElem? hcur)
  obtain ⟨col, hcol⟩ := h.target_col libs hstart hboundary
  unfold TextArea.move_up_on_wrapped
  simp only [hcur, hcol, Option.bind_eq_bind, Option.bind_some]
  split_ifs with hfirst
  · have hlen : idx - 1 < cache.lines.length := by
      have hlt := (List.getElem?_eq_some_iff.mp hcur).1
      omega
    obtain ⟨prev, hprev⟩ : ∃ prev, cache.lines[idx - 1]? = some prev :=
      ⟨_, List.getElem?_eq_getElem hlen⟩
    obtain ⟨hle, hline, hend⟩ := h.lines cache hcache prev (List.mem_of_getElem? hprev)
    rw [hprev, Option.bind_some]
    exact (h.move h.cursor (some col)).move_to_display_col_on_line hlibs hle hline hend col
  · exact ⟨_, rfl, h.move (boundary_zero _) none⟩

theorem move_down_on_wrapped (h : Valid s) {cache : WrapCache} (hcache : s.wrap_cache = some cache)
    {idx : Nat} (hidx : TextArea.wrapped_line_index_by_start cache.lines s.cursor_pos = some idx) :
    ∃ s', s.move_down_on_wrapped libs cache.lines idx = some s' ∧ Valid s' := by
  obtain ⟨cur, hcur, hstart⟩ := wrapped_line_at hidx
  obtain ⟨-, hboundary, -⟩ := h.lines cache hcache cur (List.mem_of_getElem? hcur)
  obtain ⟨col, hcol⟩ := h.target_col libs hstart hboundary
  unfold TextArea.move_down_on_wrapped
  simp only [hcur, hcol, Option.bind_eq_bind, Option.bind_some]
  split_ifs with hlast
  · obtain ⟨next, hnext⟩ : ∃ next, cache.lines[idx + 1]? = some next :=
      ⟨_, List.getElem?_eq_getElem hlast⟩
    obtain ⟨hle, hline, hend⟩ := h.lines cache hcache next (List.mem_of_getElem? hnext)
    rw [hnext, Option.bind_some]
    exact (h.move h.cursor (some col)).move_to_display_col_on_line hlibs hle hline hend col
  · exact ⟨_, rfl, h.move (boundary_len _) none⟩

theorem move_cursor_up (h : Valid s) : ∃ s', s.move_cursor_up libs = some s' ∧ Valid s' := by
  unfold TextArea.move_cursor_up
  cases hcache : s.wrap_cache with
  | none => exact h.move_up_on_lines hlibs
  | some cache =>
    dsimp only
    cases hidx : TextArea.wrapped_line_index_by_start cache.lines s.cursor_pos with
    | none => exact h.move_up_on_lines hlibs
    | some idx => exact h.move_up_on_wrapped hlibs hcache hidx

theorem move_cursor_down (h : Valid s) : ∃ s', s.move_cursor_down libs = some s' ∧ Valid s' := by
  unfold TextArea.move_cursor_down
  cases hcache : s.wrap_cache with
  | none => exact h.move_down_on_lines hlibs
  | some cache =>
    dsimp only
    cases hidx : TextArea.wrapped_line_index_by_start cache.lines s.cursor_pos with
    | none => exact h.move_down_on_lines hlibs
    | some idx => exact h.move_down_on_wrapped hlibs hcache hidx

/-! ## Wrapping -/

omit hlibs in
theorem len_spaces (h : ∀ c ∈ t, c = ' ') : Text.len t = t.length := by
  induction t with
  | nil => rfl
  | cons c t ih =>
    obtain ⟨rfl, hrest⟩ := List.forall_mem_cons.mp h
    rw [Text.len_cons, ih hrest, List.length_cons, Nat.add_comm]
    rfl

omit hlibs in
theorem wrapped_range_spec {line : Nat × Nat} (hle : line.1 ≤ line.2)
    (hstart : is_char_boundary s.text line.1 = true)
    (hstop : is_char_boundary s.text line.2 = true) :
    ∃ range, s.wrapped_range line = some range ∧ range.1 ≤ range.2 - 1 ∧
      is_char_boundary s.text range.1 = true ∧ is_char_boundary s.text (range.2 - 1) = true := by
  obtain ⟨a, b, htext, hlen⟩ := boundary_iff.mp hstop
  have hcut : Text.cut line.2 s.text = some (a, b) := by
    rw [htext, ← hlen, cut_at]
  have hspaces : Text.len (b.takeWhile (· == ' ')) = (b.takeWhile (· == ' ')).length := by
    apply len_spaces
    intro c hc
    simpa using List.mem_takeWhile_imp hc
  unfold TextArea.wrapped_range
  rw [hcut]
  refine ⟨_, rfl, Nat.le_add_right_of_le hle, hstart, ?_⟩
  change is_char_boundary s.text (line.2 + (b.takeWhile (· == ' ')).length) = true
  rw [← hspaces, ← hlen, ← Text.len_append]
  refine boundary_iff.mpr ⟨_, b.dropWhile (· == ' '), ?_, rfl⟩
  rw [htext, List.append_assoc, List.takeWhile_append_dropWhile]

omit hlibs in
theorem mapM_some {α β : Type} {f : α → Option β} {P : β → Prop} {xs : List α}
    (h : ∀ x ∈ xs, ∃ y, f x = some y ∧ P y) : ∃ ys, xs.mapM f = some ys ∧ ∀ y ∈ ys, P y := by
  induction xs with
  | nil => exact ⟨[], rfl, by simp⟩
  | cons x xs ih =>
    obtain ⟨y, hy, hP⟩ := h x List.mem_cons_self
    obtain ⟨ys, hys, hall⟩ := ih fun x hx => h x (List.mem_cons_of_mem _ hx)
    refine ⟨y :: ys, ?_, List.forall_mem_cons.mpr ⟨hP, hall⟩⟩
    simp [List.mapM_cons, hy, hys]

theorem wrapped_lines (h : Valid s) {width : Nat} (hwidth : 2 ≤ width) :
    ∃ s', s.wrapped_lines libs width = some s' ∧ Valid s' := by
  unfold TextArea.wrapped_lines
  split_ifs
  · exact ⟨s, rfl, h⟩
  · have hlines : ∀ line ∈ libs.wrap s.text (width - 1),
        ∃ range, s.wrapped_range line = some range ∧ range.1 ≤ range.2 - 1 ∧
          is_char_boundary s.text range.1 = true ∧
          is_char_boundary s.text (range.2 - 1) = true := by
      intro line hline
      obtain ⟨hle, hstart, hstop⟩ := hlibs.wrap s.text (width - 1) (by omega) line hline
      exact wrapped_range_spec hle hstart hstop
    obtain ⟨ranges, hranges, hall⟩ := mapM_some hlines
    rw [hranges]
    refine ⟨_, rfl, h.cursor, h.undo, fun cache hcache => ?_⟩
    obtain rfl := Option.some.inj hcache
    exact hall

end Valid

/-! ## Runs -/

omit hlibs

inductive Op where
  | set_text (text : Text)
  | insert_str (text : Text)
  | insert_str_at (pos : Nat) (text : Text)
  | replace_range (start stop : Nat) (text : Text)
  | set_cursor (pos : Nat)
  | undo
  | delete_backward (n : Nat)
  | delete_forward (n : Nat)
  | delete_backward_word
  | delete_forward_word
  | kill_to_end_of_line
  | kill_to_beginning_of_line
  | delete_entire_line
  | move_cursor_left
  | move_cursor_right
  | move_cursor_up
  | move_cursor_down
  | move_cursor_to_beginning_of_line (move_up_at_bol : Bool)
  | move_cursor_to_end_of_line (move_down_at_eol : Bool)
  | move_to_previous_word
  | move_to_next_word
  | wrapped_lines (width : Nat)

def Op.apply (libs : TextLibs) (s : TextArea) : Op → Option TextArea
  | .set_text text => some (s.set_text text)
  | .insert_str text => s.insert_str text
  | .insert_str_at pos text => s.insert_str_at pos text
  | .replace_range start stop text => s.replace_range start stop text
  | .set_cursor pos => some (s.set_cursor pos)
  | .undo => some s.undo
  | .delete_backward n => s.delete_backward libs n
  | .delete_forward n => s.delete_forward libs n
  | .delete_backward_word => s.delete_backward_word
  | .delete_forward_word => s.delete_forward_word
  | .kill_to_end_of_line => s.kill_to_end_of_line
  | .kill_to_beginning_of_line => s.kill_to_beginning_of_line
  | .delete_entire_line => s.delete_entire_line
  | .move_cursor_left => some (s.move_cursor_left libs)
  | .move_cursor_right => some (s.move_cursor_right libs)
  | .move_cursor_up => s.move_cursor_up libs
  | .move_cursor_down => s.move_cursor_down libs
  | .move_cursor_to_beginning_of_line up => s.move_cursor_to_beginning_of_line up
  | .move_cursor_to_end_of_line down => s.move_cursor_to_end_of_line down
  | .move_to_previous_word => s.move_to_previous_word
  | .move_to_next_word => s.move_to_next_word
  | .wrapped_lines width => s.wrapped_lines libs width

/-- A run of operations on a new text area, none where one of them panics. -/
def run (libs : TextLibs) (ops : List Op) : Option TextArea :=
  ops.foldlM (Op.apply libs) .new

/-- The positions that a caller gives are boundaries of the text, where anything is to be replaced,
and so is the cursor in a text that is set. No text is wrapped in less than two columns. -/
def Op.Fits (s : TextArea) : Op → Prop
  | .set_text text => is_char_boundary text (min s.cursor_pos (Text.len text)) = true
  | .insert_str_at pos _ => is_char_boundary s.text pos = true
  | .replace_range start stop text =>
    start ≤ stop ∧ (min stop s.len - min start s.len = 0 ∧ text = [] ∨
      is_char_boundary s.text start = true ∧ is_char_boundary s.text stop = true)
  | .set_cursor pos => is_char_boundary s.text (min pos s.len) = true
  | .wrapped_lines width => 2 ≤ width
  | _ => True

theorem replace_nothing (hle : start ≤ stop) (h : min stop s.len - min start s.len = 0) :
    s.replace_range start stop [] = some s.push_undo_snapshot := by
  unfold TextArea.replace_range
  rw [if_pos hle]
  exact if_pos ⟨h, rfl⟩

/-- The range of a replacement that does not panic. -/
theorem range_of_replace {text : Text} (h : s.replace_range start stop text = some s') :
    start ≤ stop ∧ (min stop s.len - min start s.len = 0 ∧ text = [] ∨
      is_char_boundary s.text start = true ∧ is_char_boundary s.text stop = true) := by
  unfold TextArea.replace_range at h
  by_cases hle : start ≤ stop
  · rw [if_pos hle] at h
    dsimp only at h
    by_cases hnothing : min stop s.len - min start s.len = 0 ∧ Text.len text = 0
    · exact ⟨hle, .inl ⟨hnothing.1, Text.len_eq_zero.mp hnothing.2⟩⟩
    · have hremoved : ¬ (min stop s.push_undo_snapshot.len -
          min start s.push_undo_snapshot.len = 0 ∧ Text.len text = 0) := hnothing
      rw [if_neg hremoved] at h
      obtain ⟨before, hbefore, h⟩ := Option.bind_eq_some_iff.mp h
      obtain ⟨behind, hbehind, -⟩ := Option.bind_eq_some_iff.mp h
      exact ⟨hle, .inr ⟨Option.isSome_iff_exists.mpr ⟨before, hbefore⟩,
        Option.isSome_iff_exists.mpr ⟨behind, hbehind⟩⟩⟩
  · rw [if_neg hle] at h
    cases h

/-- An operation that ends with its cursor on a boundary fits. -/
theorem fits_of_apply {op : Op} (hwrap : ∀ width, op = .wrapped_lines width → 2 ≤ width)
    (h : op.apply libs s = some s') (hcursor : is_char_boundary s'.text s'.cursor_pos = true) :
    op.Fits s := by
  cases op with
  | set_text text =>
    obtain rfl := Option.some.inj h
    exact hcursor
  | insert_str_at pos text =>
    obtain ⟨parts, hparts, -⟩ := Option.bind_eq_some_iff.mp h
    exact Option.isSome_iff_exists.mpr ⟨parts, hparts⟩
  | replace_range start stop text =>
    exact range_of_replace h
  | set_cursor pos =>
    obtain rfl := Option.some.inj h
    have hclamp : s.clamp_pos_to_nearest_boundary (min pos s.len) = min pos s.len :=
      if_neg (Nat.not_lt.mpr (Nat.min_le_right pos s.len))
    unfold TextArea.set_cursor at hcursor
    rw [hclamp] at hcursor
    exact hcursor
  | wrapped_lines width => exact hwrap width rfl
  | _ => trivial

include hlibs

/-- What one operation preserves. -/
theorem Valid.apply (h : Valid s) (op : Op) (hfits : op.Fits s) :
    ∃ s', op.apply libs s = some s' ∧ Valid s' := by
  cases op with
  | set_text text => exact ⟨_, rfl, h.set_text hfits⟩
  | insert_str text => exact h.insert_str_at h.cursor text
  | insert_str_at pos text => exact h.insert_str_at hfits text
  | replace_range start stop text =>
    obtain ⟨hle, ⟨hremoved, rfl⟩ | ⟨hstart, hstop⟩⟩ := hfits
    · exact ⟨_, replace_nothing hle hremoved, h.push_undo_snapshot⟩
    · obtain ⟨s', hs', hvalid, -⟩ := h.replace_range hle hstart hstop text
      exact ⟨s', hs', hvalid⟩
  | set_cursor pos => exact ⟨_, rfl, h.set_cursor hfits⟩
  | undo => exact ⟨_, rfl, h.undo_op⟩
  | delete_backward n => exact h.delete_backward hlibs n
  | delete_forward n => exact h.delete_forward hlibs n
  | delete_backward_word => exact h.delete_backward_word
  | delete_forward_word => exact h.delete_forward_word
  | kill_to_end_of_line => exact h.kill_to_end_of_line
  | kill_to_beginning_of_line => exact h.kill_to_beginning_of_line
  | delete_entire_line => exact h.delete_entire_line
  | move_cursor_left =>
    exact ⟨_, rfl, h.move (prev_atomic_boundary_spec hlibs h.cursor).2 none⟩
  | move_cursor_right =>
    exact ⟨_, rfl, h.move (next_atomic_boundary_spec hlibs h.cursor).2 none⟩
  | move_cursor_up => exact h.move_cursor_up hlibs
  | move_cursor_down => exact h.move_cursor_down hlibs
  | move_cursor_to_beginning_of_line up => exact h.move_cursor_to_beginning_of_line up
  | move_cursor_to_end_of_line down => exact h.move_cursor_to_end_of_line down
  | move_to_previous_word => exact h.move_to_previous_word
  | move_to_next_word => exact h.move_to_next_word
  | wrapped_lines width => exact h.wrapped_lines hlibs hfits

omit hlibs in
theorem run_concat (ops : List Op) (op : Op) :
    run libs (ops ++ [op]) = (run libs ops).bind fun s => op.apply libs s := by
  unfold run
  rw [List.foldlM_append]
  simp

/-- Each operation of a run fits the state that it finds. -/
def AllFit (libs : TextLibs) (ops : List Op) : Prop :=
  ∀ before op, before ++ [op] <+: ops → ∀ s, run libs before = some s → op.Fits s

theorem run_valid {ops : List Op} (h : AllFit libs ops) : ∃ s, run libs ops = some s ∧ Valid s := by
  induction ops using List.reverseRecOn with
  | nil => exact ⟨.new, rfl, valid_new⟩
  | append_singleton ops op ih =>
    have hbefore : AllFit libs ops := fun before op hinit =>
      h before op (hinit.trans (List.prefix_append ops _))
    obtain ⟨s, hs, hvalid⟩ := ih hbefore
    obtain ⟨s', hs', hvalid'⟩ := hvalid.apply hlibs op (h ops op List.prefix_rfl s hs)
    refine ⟨s', ?_, hvalid'⟩
    rw [run_concat, hs]
    exact hs'

/-- After each operation of the run the cursor is on a boundary of the text. -/
def CursorStaysOnBoundary (libs : TextLibs) (ops : List Op) : Prop :=
  ∀ before, before <+: ops → ∃ s, run libs before = some s ∧
    s.cursor_pos ≤ Text.len s.text ∧ is_char_boundary s.text s.cursor_pos = true

omit hlibs in
theorem allFit_of_cursor {ops : List Op} (hwrap : ∀ width, .wrapped_lines width ∈ ops → 2 ≤ width)
    (h : CursorStaysOnBoundary libs ops) : AllFit libs ops := by
  induction ops using List.reverseRecOn with
  | nil =>
    intro before op hinit
    simp at hinit
  | append_singleton ops last ih =>
    have hfit : AllFit libs ops := by
      apply ih (fun width hmem => hwrap width (List.mem_append_left _ hmem))
      exact fun before hinit => h before (hinit.trans (List.prefix_append ops _))
    intro before op hinit s hs
    rcases List.prefix_concat_iff.mp hinit with heq | hinit
    · obtain ⟨rfl, hop⟩ := List.append_inj' heq rfl
      obtain rfl : op = last := by simpa using hop
      obtain ⟨s', hs', -, hcursor⟩ := h (before ++ [op]) List.prefix_rfl
      rw [run_concat, hs] at hs'
      refine fits_of_apply (fun width heq => hwrap width ?_) hs' hcursor
      rw [← heq]
      exact List.mem_append_right before List.mem_cons_self
    · exact hfit before op hinit s hs

/-- No operation of a run panics, and the cursor is on a boundary of the text after each of them,
exactly when every operation fits the state that it finds. -/
theorem cursor_stays_on_boundary_iff {ops : List Op}
    (hwrap : ∀ width, .wrapped_lines width ∈ ops → 2 ≤ width) :
    CursorStaysOnBoundary libs ops ↔ AllFit libs ops := by
  refine ⟨allFit_of_cursor hwrap, fun h before hinit => ?_⟩
  have hfit : AllFit libs before := fun first op hfirst => h first op (hfirst.trans hinit)
  obtain ⟨s, hs, hvalid⟩ := run_valid hlibs hfit
  exact ⟨s, hs, boundary_le hvalid.cursor, hvalid.cursor⟩

/-! Graphemes of one character, in a text of one line. -/

omit hlibs

def charwise : TextLibs where
  prev_boundary := fun text pos => .ok (some (truncate.boundary_down text (pos - 1)))
  next_boundary := fun text pos => .ok (some (truncate.boundary_up text (Text.len text) (pos + 1)))
  graphemes := fun text => text.map fun c => [c]
  width := List.length
  wrap := fun text _ => [(0, Text.len text)]

theorem charwise_documented : Documented charwise where
  prev := by
    intro text pos _ hpos
    have hle := truncate.boundary_down_le text (pos - 1)
    exact ⟨_, rfl, by omega, truncate.boundary_down_boundary text (pos - 1)⟩
  next := by
    intro text pos _ hpos
    have hup : pos + 1 ≤ truncate.boundary_up text (Text.len text) (pos + 1) ∧
        truncate.boundary_up text (Text.len text) (pos + 1) ≤ Text.len text ∧
        is_char_boundary text (truncate.boundary_up text (Text.len text) (pos + 1)) = true :=
      truncate.boundary_up_boundary (by omega) (by omega)
    exact ⟨_, rfl, hup.1, hup.2.2⟩
  graphemes := by
    intro text
    change (text.map fun c => [c]).flatten = text
    rw [← List.flatMap_def, List.flatMap_singleton']
  wrap := by
    intro text width _ line hline
    obtain rfl := List.mem_singleton.mp hline
    exact ⟨Nat.zero_le _, boundary_zero text, boundary_len text⟩

theorem typed_word_fits :
    CursorStaysOnBoundary charwise
        [.insert_str "naïve".toList, .wrapped_lines 20, .move_cursor_left, .delete_backward 1,
          .undo, .set_text "né".toList] ↔
      AllFit charwise
        [.insert_str "naïve".toList, .wrapped_lines 20, .move_cursor_left, .delete_backward 1,
          .undo, .set_text "né".toList] :=
  cursor_stays_on_boundary_iff charwise_documented (by simp)

/-- The cursor behind a letter of one byte is inside of the letter that takes its place. -/
theorem set_text_leaves_the_cursor_inside :
    ¬ CursorStaysOnBoundary charwise [.insert_str "a".toList, .set_text "é".toList] := by
  intro h
  obtain ⟨s, hs, -, hcursor⟩ := h _ List.prefix_rfl
  have hrun : run charwise [.insert_str "a".toList, .set_text "é".toList] =
      some ⟨"é".toList, 1, none, none, [⟨[], 0⟩]⟩ := by decide
  rw [hrun] at hs
  obtain rfl := Option.some.inj hs
  exact absurd hcursor (by decide)

end Ecode.textarea
