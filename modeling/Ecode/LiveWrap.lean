-- Incremental wrapping of plain text into rows (tui/src/live_wrap.rs).
import Ecode.GreedyRows
import Ecode.Text

namespace Ecode.live_wrap

-- `UnicodeWidthChar::width` and `UnicodeWidthStr::width` are of another package.
variable (char_width : Char → Option Nat) (str_width : Text → Nat)

/-- A single visual row. -/
structure Row where
  text : Text
  explicit_break : Bool
  width : Nat
  deriving DecidableEq

structure RowBuilder where
  target_width : Nat
  current_line : Text
  rows : List Row
  deriving DecidableEq

def make_row (text : Text) (explicit_break : Bool) : Row where
  text := text
  explicit_break := explicit_break
  width := str_width text

def cells (ch : Char) : Nat := (char_width ch).getD 0

/-! ## One line -/

/-- The loop of `take_prefix_by_width`, with `cols` cells taken. -/
def take_from (max_cols : Nat) : Nat → Text → Text × Text × Nat
  | cols, [] => ([], [], cols)
  | cols, ch :: t =>
    if max_cols < cols + cells char_width ch then ([], ch :: t, cols)
    else if cols + cells char_width ch = max_cols then ([ch], t, max_cols)
    else
      let more := take_from max_cols (cols + cells char_width ch) t
      (ch :: more.1, more.2)

def take_prefix_by_width (text : Text) (max_cols : Nat) : Text × Text × Nat :=
  if max_cols = 0 ∨ text = [] then ([], text, 0) else take_from char_width max_cols 0 text

/-- The loop of `wrap_current_line`: the rows it pushes and the line it leaves. -/
def wrap_loop (w : Nat) : Nat → Text → List Row × Text
  | 0, line => ([], line)
  | _, [] => ([], [])
  | fuel + 1, ch :: t =>
    let cut := take_prefix_by_width char_width (ch :: t) w
    if cut.2.2 = 0 then
      let more := wrap_loop w fuel t
      (make_row str_width [ch] false :: more.1, more.2)
    else if cut.2.1 = [] then ([], ch :: t)
    else
      let more := wrap_loop w fuel cut.2.1
      (make_row str_width cut.1 false :: more.1, more.2)

/-- Each turn of the loop takes a character. -/
def wrap (w : Nat) (line : Text) : List Row × Text :=
  wrap_loop char_width str_width w line.length line

namespace RowBuilder

def new (target_width : Nat) : RowBuilder where
  target_width := max target_width 1
  current_line := []
  rows := []

def wrap_current_line (s : RowBuilder) : RowBuilder :=
  let out := wrap char_width str_width s.target_width s.current_line
  { s with current_line := out.2, rows := s.rows ++ out.1 }

/-- `flush_current_line(true)`: what remains of the line gets the break, also when nothing
remains. -/
def flush_current_line (s : RowBuilder) : RowBuilder :=
  let s := s.wrap_current_line char_width str_width
  { s with current_line := [], rows := s.rows ++ [make_row str_width s.current_line true] }

def push_str (s : RowBuilder) (text : Text) : RowBuilder :=
  { s with current_line := s.current_line ++ text }

/-- The loop of `push_fragment` over the pieces between line feeds. -/
def push_pieces (s : RowBuilder) : List Text → RowBuilder
  | [] => s
  | [last] => if last = [] then s else (s.push_str last).wrap_current_line char_width str_width
  | piece :: pieces =>
    push_pieces ((s.push_str piece).flush_current_line char_width str_width) pieces

def push_fragment (s : RowBuilder) (fragment : Text) : RowBuilder :=
  s.push_pieces char_width str_width (Text.split '\n' fragment)

end RowBuilder

/-- The text of rows, with the line feeds of the explicit breaks. -/
def text_of (rows : List Row) : Text :=
  rows.flatMap fun row => row.text ++ if row.explicit_break then ['\n'] else []

namespace RowBuilder

def set_width (s : RowBuilder) (width : Nat) : RowBuilder :=
  let all := text_of s.rows ++ s.current_line
  (new width).push_fragment char_width str_width all

def display_rows (s : RowBuilder) : List Row :=
  if s.current_line = [] then s.rows
  else s.rows ++ [make_row str_width s.current_line false]

end RowBuilder

end Ecode.live_wrap
