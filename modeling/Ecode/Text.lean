-- Texts as the programs see them: lists of Unicode scalar values, with the
-- length in UTF-8 bytes that `str::len` counts and the string functions of the
-- Rust standard library that the models call.
import Mathlib

namespace Ecode

/-- A Rust `String` or `&str`. -/
abbrev Text := List Char

instance : LawfulBEq Text := inferInstance

namespace Text

/-! ## Bytes -/

/-- `str::len`: the bytes of the text in UTF-8. -/
def len (t : Text) : Nat := (t.map Char.utf8Size).sum

/-- The text before byte `n` and the text from it on. There is none when `n` is past the
end or inside a character: there a Rust slice panics. -/
def cut : Nat → Text → Option (Text × Text)
  | 0, t => some ([], t)
  | _ + 1, [] => none
  | n + 1, c :: t =>
    if c.utf8Size ≤ n + 1 then (cut (n + 1 - c.utf8Size) t).map (fun p => (c :: p.1, p.2))
    else none

/-! ## The string functions of the standard library -/

/-- `char::is_whitespace`: the Unicode property `White_Space`. -/
def is_whitespace (c : Char) : Bool :=
  let n := c.toNat
  (0x09 ≤ n && n ≤ 0x0D) || n == 0x20 || n == 0x85 || n == 0xA0 || n == 0x1680 ||
    (0x2000 ≤ n && n ≤ 0x200A) || n == 0x2028 || n == 0x2029 || n == 0x202F || n == 0x205F ||
    n == 0x3000

def trim_start (t : Text) : Text := t.dropWhile is_whitespace

def trim_end (t : Text) : Text := (t.reverse.dropWhile is_whitespace).reverse

def trim (t : Text) : Text := trim_end (trim_start t)

/-- `str::strip_prefix`. -/
def strip_prefix : Text → Text → Option Text
  | t, [] => some t
  | [], _ :: _ => none
  | c :: t, p :: ps => if c = p then strip_prefix t ps else none

/-- `str::strip_suffix`. -/
def strip_suffix (t s : Text) : Option Text :=
  ( strip_prefix t.reverse s.reverse).map List.reverse

def starts_with (t p : Text) : Bool := p.isPrefixOf t

def ends_with (t s : Text) : Bool := s.isSuffixOf t

/-- `str::contains` of a text. -/
def contains (t p : Text) : Bool := t.tails.any (fun s => p.isPrefixOf s)

/-- `str::split` at a character: always at least one piece. -/
def split (sep : Char) : Text → List Text
  | [] => [[]]
  | c :: t =>
    if c = sep then [] :: split sep t
    else match split sep t with
      | [] => [[c]]
      | p :: ps => (c :: p) :: ps

/-- `slice::join`. -/
def join (sep : Text) : List Text → Text
  | [] => []
  | [t] => t
  | t :: ts => t ++ sep ++ join sep ts

/-- One piece of `str::split_inclusive('\n')`, without its line feed and without a carriage
return before it. -/
def chomp (t : Text) : Text :=
  match strip_suffix t ['\n'] with
  | none => t
  | some l => (strip_suffix l ['\r']).getD l

/-- `str::split_inclusive('\n')`. -/
def split_inclusive : Text → List Text
  | [] => []
  | c :: t =>
    if c = '\n' then ['\n'] :: split_inclusive t
    else match split_inclusive t with
      | [] => [[c]]
      | p :: ps => (c :: p) :: ps

/-- `str::lines`. -/
def lines (t : Text) : List Text := (split_inclusive t).map chomp

def to_ascii_lowercase (t : Text) : Text :=
  t.map (fun c => if 'A' ≤ c ∧ c ≤ 'Z' then Char.ofNat (c.toNat + 32) else c)

def eq_ignore_ascii_case (a b : Text) : Bool := to_ascii_lowercase a == to_ascii_lowercase b

/-- `str::trim_matches` of one character. -/
def trim_matches (c : Char) (t : Text) : Text :=
  ((t.dropWhile (· == c)).reverse.dropWhile (· == c)).reverse

/-- The decimal digits of a number, as `format!` prints them. -/
def ofNat (n : Nat) : Text := Nat.toDigits 10 n

end Text

end Ecode
