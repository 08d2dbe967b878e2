-- The text area of the composer (tui/src/bottom_pane/textarea.rs): its text, the byte where the
-- cursor is, the wrapped lines of the last frame and the snapshots for undo.
import Ecode.ChunkText

namespace Ecode.textarea

open auto_compact (slice)

/-! ## The state -/

structure WrapCache where
  width : Nat
  lines : List (Nat × Nat)
  deriving DecidableEq, Repr

structure UndoSnapshot where
  text : Text
  cursor_pos : Nat
  deriving DecidableEq, Repr

structure TextArea where
  text : Text
  cursor_pos : Nat
  wrap_cache : Option WrapCache
  preferred_col : Option Nat
  undo_stack : List UndoSnapshot
  deriving DecidableEq, Repr

/-- What `unicode_segmentation`, `unicode_width` and `textwrap` compute of a whole text. A wrapped
line is a slice of the text, given by its start and its end. -/
structure TextLibs where
  prev_boundary : Text → Nat → Except Unit (Option Nat)
  next_boundary : Text → Nat → Except Unit (Option Nat)
  graphemes : Text → List Text
  width : Text → Nat
  wrap : Text → Nat → List (Nat × Nat)

/-- `str::find` of a character that `p` takes. -/
def find (p : Char → Bool) : Text → Option Nat
  | [] => none
  | c :: t => if p c then some 0 else (find p t).map (· + c.utf8Size)

/-- `str::rfind` of a character that `p` takes. -/
def rfind (p : Char → Bool) : Text → Option Nat
  | [] => none
  | c :: t =>
    match rfind p t with
    | some i => some (i + c.utf8Size)
    | none => if p c then some 0 else none

def is_newline (c : Char) : Bool := c == '\n'

def MAX_UNDO_SNAPSHOTS : Nat := 128

namespace TextArea

def new : TextArea where
  text := []
  cursor_pos := 0
  wrap_cache := none
  preferred_col := none
  undo_stack := []

def len (s : TextArea) : Nat := Text.len s.text

-- An operation that slices its text outside of it or inside a character panics: it is none.

/-! ## Edits -/

def set_text (s : TextArea) (text : Text) : TextArea :=
  { s with
    text := text
    cursor_pos := min s.cursor_pos (Text.len text)
    wrap_cache := none
    preferred_col := none }

def clamp_pos_to_nearest_boundary (s : TextArea) (pos : Nat) : Nat :=
  if s.len < pos then s.len else pos

/-- The newest snapshots. -/
def drain_excess (stack : List UndoSnapshot) : List UndoSnapshot :=
  if MAX_UNDO_SNAPSHOTS < stack.length then stack.drop (stack.length - MAX_UNDO_SNAPSHOTS)
  else stack

def push_undo_snapshot (s : TextArea) : TextArea :=
  { s with undo_stack := drain_excess (s.undo_stack ++ [⟨s.text, s.cursor_pos⟩]) }

def insert_str_at (s : TextArea) (pos : Nat) (text : Text) : Option TextArea := do
  let s := s.push_undo_snapshot
  let parts ← Text.cut pos s.text
  some { s with
    text := parts.1 ++ text ++ parts.2
    cursor_pos := if pos ≤ s.cursor_pos then s.cursor_pos + Text.len text else s.cursor_pos
    wrap_cache := none
    preferred_col := none }

def insert_str (s : TextArea) (text : Text) : Option TextArea :=
  s.insert_str_at s.cursor_pos text

def replace_range (s : TextArea) (start stop : Nat) (text : Text) : Option TextArea :=
  if start ≤ stop then
    let s := s.push_undo_snapshot
    let first := min start s.len
    let last := min stop s.len
    let removed_len := last - first
    if removed_len = 0 ∧ Text.len text = 0 then some s
    else do
      let before ← Text.cut start s.text
      let behind ← Text.cut stop s.text
      let edited := { s with
        text := before.1 ++ text ++ behind.2
        wrap_cache := none
        preferred_col := none }
      let cursor_pos :=
        if s.cursor_pos < first then s.cursor_pos
        else if s.cursor_pos ≤ last then first + Text.len text
        else s.cursor_pos + Text.len text - removed_len
      some { edited with
        cursor_pos := edited.clamp_pos_to_nearest_boundary (min cursor_pos edited.len) }
  else none

def set_cursor (s : TextArea) (pos : Nat) : TextArea :=
  { s with
    cursor_pos := s.clamp_pos_to_nearest_boundary (min pos s.len)
    preferred_col := none }

def undo (s : TextArea) : TextArea :=
  match s.undo_stack.getLast? with
  | some prev =>
    { text := prev.text
      cursor_pos := min prev.cursor_pos (Text.len prev.text)
      wrap_cache := none
      preferred_col := none
      undo_stack := s.undo_stack.dropLast }
  | none => s

/-! ## Lines and words -/

def beginning_of_line (s : TextArea) (pos : Nat) : Option Nat := do
  let parts ← Text.cut pos s.text
  some (((rfind is_newline parts.1).map (· + 1)).getD 0)

def end_of_line (s : TextArea) (pos : Nat) : Option Nat := do
  let parts ← Text.cut pos s.text
  some (((find is_newline parts.2).map (· + pos)).getD s.len)

def beginning_of_previous_word (s : TextArea) : Option Nat := do
  let parts ← Text.cut s.cursor_pos s.text
  match rfind (fun c => !Text.is_whitespace c) parts.1 with
  | some first_non_ws => do
    let before ← Text.cut first_non_ws s.text
    match rfind Text.is_whitespace before.1 with
    | some i => do
      let rest ← Text.cut i s.text
      let c ← rest.2.head?
      some (i + c.utf8Size)
    | none => some 0
  | none => some 0

def end_of_next_word (s : TextArea) : Option Nat := do
  let parts ← Text.cut s.cursor_pos s.text
  match find (fun c => !Text.is_whitespace c) parts.2 with
  | some first_non_ws => do
    let word_start := s.cursor_pos + first_non_ws
    let rest ← Text.cut word_start s.text
    match find Text.is_whitespace rest.2 with
    | some rel_idx => some (word_start + rel_idx)
    | none => some s.len
  | none => some s.len

/-! ## Deleting -/

variable (libs : TextLibs)

def prev_atomic_boundary (s : TextArea) (pos : Nat) : Nat :=
  if pos = 0 then 0
  else
    match libs.prev_boundary s.text pos with
    | .ok (some b) => b
    | .ok none => 0
    | .error _ => pos - 1

def next_atomic_boundary (s : TextArea) (pos : Nat) : Nat :=
  if s.len ≤ pos then s.len
  else
    match libs.next_boundary s.text pos with
    | .ok (some b) => b
    | .ok none => s.len
    | .error _ => pos + 1

/-- The loop of `delete_backward`. -/
def back_by (s : TextArea) : Nat → Nat → Nat
  | 0, target => target
  | n + 1, target =>
    let target := s.prev_atomic_boundary libs target
    if target = 0 then target else s.back_by n target

/-- The loop of `delete_forward`. -/
def forward_by (s : TextArea) : Nat → Nat → Nat
  | 0, target => target
  | n + 1, target =>
    let target := s.next_atomic_boundary libs target
    if s.len ≤ target then target else s.forward_by n target

def delete_backward (s : TextArea) (n : Nat) : Option TextArea :=
  if n = 0 ∨ s.cursor_pos = 0 then some s
  else s.replace_range (s.back_by libs n s.cursor_pos) s.cursor_pos []

def delete_forward (s : TextArea) (n : Nat) : Option TextArea :=
  if n = 0 ∨ s.len ≤ s.cursor_pos then some s
  else s.replace_range s.cursor_pos (s.forward_by libs n s.cursor_pos) []

def delete_backward_word (s : TextArea) : Option TextArea := do
  let start ← s.beginning_of_previous_word
  s.replace_range start s.cursor_pos []

def delete_forward_word (s : TextArea) : Option TextArea := do
  let stop ← s.end_of_next_word
  if s.cursor_pos < stop then s.replace_range s.cursor_pos stop [] else some s

def kill_to_end_of_line (s : TextArea) : Option TextArea := do
  let eol ← s.end_of_line s.cursor_pos
  if s.cursor_pos = eol then
    if eol < s.len then s.replace_range s.cursor_pos (eol + 1) [] else some s
  else s.replace_range s.cursor_pos eol []

def kill_to_beginning_of_line (s : TextArea) : Option TextArea := do
  let bol ← s.beginning_of_line s.cursor_pos
  if s.cursor_pos = bol then
    if 0 < bol then s.replace_range (bol - 1) bol [] else some s
  else s.replace_range bol s.cursor_pos []

def delete_entire_line (s : TextArea) : Option TextArea := do
  let bol ← s.beginning_of_line s.cursor_pos
  let eol ← s.end_of_line s.cursor_pos
  let s ← if bol < eol then s.replace_range bol eol [] else some s
  some (s.set_cursor bol)

/-! ## Moving -/

def move_cursor_left (s : TextArea) : TextArea :=
  { s with cursor_pos := s.prev_atomic_boundary libs s.cursor_pos, preferred_col := none }

def move_cursor_right (s : TextArea) : TextArea :=
  { s with cursor_pos := s.next_atomic_boundary libs s.cursor_pos, preferred_col := none }

def move_cursor_to_beginning_of_line (s : TextArea) (move_up_at_bol : Bool) :
    Option TextArea := do
  let bol ← s.beginning_of_line s.cursor_pos
  if move_up_at_bol ∧ s.cursor_pos = bol then do
    let above ← s.beginning_of_line (s.cursor_pos - 1)
    some (s.set_cursor above)
  else some (s.set_cursor bol)

def move_cursor_to_end_of_line (s : TextArea) (move_down_at_eol : Bool) : Option TextArea := do
  let eol ← s.end_of_line s.cursor_pos
  if move_down_at_eol ∧ s.cursor_pos = eol then do
    let below ← s.end_of_line (min (s.cursor_pos + 1) s.len)
    some (s.set_cursor below)
  else some (s.set_cursor eol)

def move_to_previous_word (s : TextArea) : Option TextArea :=
  s.beginning_of_previous_word.map s.set_cursor

def move_to_next_word (s : TextArea) : Option TextArea := s.end_of_next_word.map s.set_cursor

/-- Where the first grapheme begins that ends behind the column. -/
def grapheme_past (target_col : Nat) : Nat → Nat → List Text → Option Nat
  | _, _, [] => none
  | width_so_far, i, g :: gs =>
    if target_col < width_so_far + libs.width g then some i
    else grapheme_past target_col (width_so_far + libs.width g) (i + Text.len g) gs

def move_to_display_col_on_line (s : TextArea) (line_start line_end target_col : Nat) :
    Option TextArea := do
  let line ← slice s.text line_start line_end
  let pos :=
    match grapheme_past libs target_col 0 0 (libs.graphemes line) with
    | some i => line_start + i
    | none => line_end
  some { s with cursor_pos := s.clamp_pos_to_nearest_boundary pos }

/-- The column that is kept, or else the one where the cursor is on its line. -/
def target_col (s : TextArea) (line_start : Nat) : Option Nat :=
  match s.preferred_col with
  | some c => some c
  | none => (slice s.text line_start s.cursor_pos).map libs.width

/-- The last line that starts at the cursor or before it; the lines are in order. -/
def wrapped_line_index_by_start (lines : List (Nat × Nat)) (pos : Nat) : Option Nat :=
  let idx := (lines.takeWhile fun line => line.1 ≤ pos).length
  if idx = 0 then none else some (idx - 1)

def move_up_on_wrapped (s : TextArea) (lines : List (Nat × Nat)) (idx : Nat) :
    Option TextArea := do
  let cur_range ← lines[idx]?
  let col ← s.target_col libs cur_range.1
  if 0 < idx then do
    let prev ← lines[idx - 1]?
    ({ s with preferred_col := some col }).move_to_display_col_on_line libs prev.1 (prev.2 - 1) col
  else some { s with cursor_pos := 0, preferred_col := none }

def move_up_on_lines (s : TextArea) : Option TextArea := do
  let parts ← Text.cut s.cursor_pos s.text
  match rfind is_newline parts.1 with
  | some prev_nl => do
    let bol ← s.beginning_of_line s.cursor_pos
    let col ← s.target_col libs bol
    let prev_line_start ← s.beginning_of_line prev_nl
    ({ s with preferred_col := some col }).move_to_display_col_on_line libs prev_line_start prev_nl
      col
  | none => some { s with cursor_pos := 0, preferred_col := none }

def move_cursor_up (s : TextArea) : Option TextArea :=
  match s.wrap_cache with
  | some cache =>
    match wrapped_line_index_by_start cache.lines s.cursor_pos with
    | some idx => s.move_up_on_wrapped libs cache.lines idx
    | none => s.move_up_on_lines libs
  | none => s.move_up_on_lines libs

def move_down_on_wrapped (s : TextArea) (lines : List (Nat × Nat)) (idx : Nat) :
    Option TextArea := do
  let cur_range ← lines[idx]?
  let col ← s.target_col libs cur_range.1
  if idx + 1 < lines.length then do
    let next ← lines[idx + 1]?
    ({ s with preferred_col := some col }).move_to_display_col_on_line libs next.1 (next.2 - 1) col
  else some { s with cursor_pos := s.len, preferred_col := none }

def move_down_on_lines (s : TextArea) : Option TextArea := do
  let bol ← s.beginning_of_line s.cursor_pos
  let col ← s.target_col libs bol
  let parts ← Text.cut s.cursor_pos s.text
  match find is_newline parts.2 with
  | some i => do
    let next_line_start := i + s.cursor_pos + 1
    let next_line_end ← s.end_of_line next_line_start
    ({ s with preferred_col := some col }).move_to_display_col_on_line libs next_line_start
      next_line_end col
  | none => some { s with cursor_pos := s.len, preferred_col := none }

def move_cursor_down (s : TextArea) : Option TextArea :=
  match s.wrap_cache with
  | some cache =>
    match wrapped_line_index_by_start cache.lines s.cursor_pos with
    | some idx => s.move_down_on_wrapped libs cache.lines idx
    | none => s.move_down_on_lines libs
  | none => s.move_down_on_lines libs

/-! ## Wrapping -/

/-- A wrapped line with the spaces behind it and one byte more. -/
def wrapped_range (s : TextArea) (line : Nat × Nat) : Option (Nat × Nat) := do
  let parts ← Text.cut line.2 s.text
  let trailing_spaces := (parts.2.takeWhile (· == ' ')).length
  some (line.1, line.2 + trailing_spaces + 1)

def wrapped_lines (s : TextArea) (width : Nat) : Option TextArea :=
  if s.wrap_cache.map WrapCache.width = some width then some s
  else do
    let lines ← (libs.wrap s.text (width - 1)).mapM s.wrapped_range
    some { s with wrap_cache := some ⟨width, lines⟩ }

end TextArea

end Ecode.textarea
