-- The new contents of an updated file (apply-patch/src/lib.rs and
-- seek_sequence.rs): each chunk is looked up in the lines of the file, and the
-- replacements are put in from the last to the first.
import Ecode.PatchParser
import Ecode.FileSystem

namespace Ecode.apply_patch

/-- `ApplyPatchError`. An `IoError` has its context and the text of its source. -/
inductive ApplyPatchError where
  | ParseError (e : ParseError)
  | IoError (context : Text) (source : IoErr)
  | ComputeReplacements (message : Text)
  | ImplicitInvocation
  | MalformedHeredocInvocation
  deriving DecidableEq, Repr

/-- How a call ends without a value: by an error it returns, or by a panic. -/
inductive Fault (ε : Type) where
  | panic
  | error (e : ε)
  deriving DecidableEq, Repr

/-! ## The search for a chunk -/

/-- `normalise`: common Unicode punctuation as its ASCII form. -/
def normalise (s : Text) : Text :=
  (Text.trim s).map fun c =>
    if c.toNat ∈ [0x2010, 0x2011, 0x2012, 0x2013, 0x2014, 0x2015, 0x2212] then '-'
    else if c.toNat ∈ [0x2018, 0x2019, 0x201A, 0x201B] then '\''
    else if c.toNat ∈ [0x201C, 0x201D, 0x201E, 0x201F] then '"'
    else if c.toNat ∈ [0x00A0, 0x2002, 0x2003, 0x2004, 0x2005, 0x2006, 0x2007, 0x2008, 0x2009,
      0x200A, 0x202F, 0x205F, 0x3000] then ' '
    else c

/-- One pass of `seek_sequence`: the first index from `search_start` on where the lines are
the pattern, both read through `f`. -/
def seek_pass (f : Text → Text) (lines pattern : List Text) (search_start : Nat) : Option Nat :=
  (List.range' search_start (lines.length - pattern.length + 1 - search_start)).find? fun i =>
    ((lines.drop i).take pattern.length).map f == pattern.map f

/-- `seek_sequence`: an exact pass, then passes that ignore more and more. -/
def seek_sequence (lines pattern : List Text) (start : Nat) (eof : Bool) : Option Nat :=
  if pattern.isEmpty then some start
  else if lines.length < pattern.length then none
  else
    let search_start := if eof then lines.length - pattern.length else start
    (seek_pass id lines pattern search_start)
      <|> (seek_pass Text.trim_end lines pattern search_start)
      <|> (seek_pass Text.trim lines pattern search_start)
      <|> (seek_pass normalise lines pattern search_start)

/-! ## The replacements -/

def normalize_line_ending (line : Text) : Text := (Text.strip_suffix line ['\r']).getD line

/-- `(start_index, old_len, new_lines)`. -/
structure Replacement where
  start_index : Nat
  old_len : Nat
  new_lines : List Text
  deriving DecidableEq, Repr

/-- The line where a chunk with a `change_context` starts to look for its old lines. -/
def seek_context (original_lines : List Text) (path : Path) (chunk : UpdateFileChunk)
    (line_index : Nat) : Except ApplyPatchError Nat :=
  match chunk.change_context with
  | none => .ok line_index
  | some ctx_line =>
    match seek_sequence original_lines [ctx_line] line_index false with
    | some idx => .ok (idx + 1)
    | none => .error (.ComputeReplacements
        ("Failed to find context '".toList ++ ctx_line ++ "' in ".toList ++ Path.display path))

/-- One turn of the loop of `compute_replacements`: the replacement of a chunk and the line
where the next chunk starts. -/
def replacement_of (original_lines : List Text) (path : Path) (chunk : UpdateFileChunk)
    (line_index : Nat) : Except ApplyPatchError (Replacement × Nat) := do
  let line_index ← seek_context original_lines path chunk line_index
  let normalized_old_lines := chunk.old_lines.map normalize_line_ending
  let normalized_new_lines := chunk.new_lines.map normalize_line_ending
  if chunk.old_lines.isEmpty then
    let insertion_idx :=
      if original_lines.getLast? = some [] then original_lines.length - 1 else original_lines.length
    .ok (⟨insertion_idx, 0, normalized_new_lines⟩, line_index)
  else
    let eof := chunk.is_end_of_file
    let (pattern, new_slice, found) :=
      match seek_sequence original_lines normalized_old_lines line_index eof with
      | some idx => (normalized_old_lines, normalized_new_lines, some idx)
      | none =>
        -- The last empty line stands for the final newline, which `original_lines` lacks.
        if normalized_old_lines.getLast? = some [] then
          let pattern := normalized_old_lines.dropLast
          let new_slice :=
            if normalized_new_lines.getLast? = some [] then normalized_new_lines.dropLast
            else normalized_new_lines
          (pattern, new_slice, seek_sequence original_lines pattern line_index eof)
        else (normalized_old_lines, normalized_new_lines, none)
    match found with
    | some start_idx =>
      .ok (⟨start_idx, pattern.length, new_slice⟩, start_idx + pattern.length)
    | none => .error (.ComputeReplacements
        ("Failed to find expected lines in ".toList ++ Path.display path ++ ":\n".toList ++
          Text.join ['\n'] normalized_old_lines))

/-- The replacements of the chunks, in the order of the chunks. -/
def replacements_from (original_lines : List Text) (path : Path) :
    List UpdateFileChunk → Nat → Except ApplyPatchError (List Replacement)
  | [], _ => .ok []
  | chunk :: chunks, line_index => do
    let (replacement, line_index) ← replacement_of original_lines path chunk line_index
    let replacements ← replacements_from original_lines path chunks line_index
    .ok (replacement :: replacements)

/-- `compute_replacements`: sorted by start, equal starts in the order of the chunks. -/
def compute_replacements (original_lines : List Text) (path : Path)
    (chunks : List UpdateFileChunk) : Except ApplyPatchError (List Replacement) := do
  let replacements ← replacements_from original_lines path chunks 0
  .ok (replacements.insertionSort (fun a b => a.start_index ≤ b.start_index))

/-- `Vec::insert` of some lines at an index. It panics past the end. -/
def insert_lines (lines : List Text) (idx : Nat) (segment : List Text) : Option (List Text) :=
  if segment.isEmpty ∨ idx ≤ lines.length then some (lines.take idx ++ segment ++ lines.drop idx)
  else none

/-- `apply_replacements`, over the replacements from the last to the first. -/
def apply_replacements (lines : List Text) : List Replacement → Option (List Text)
  | [] => some lines
  | r :: rs => do
    let lines ← apply_replacements lines rs
    insert_lines (lines.take r.start_index ++ lines.drop (r.start_index + r.old_len))
      r.start_index r.new_lines

/-! ## The new contents -/

/-- The lines of a file, without the empty one after its final newline. -/
def original_lines_of (contents : Text) : List Text :=
  let lines := (Text.split '\n' contents).map normalize_line_ending
  if lines.getLast? = some [] then lines.dropLast else lines

/-- `LineEnding::detect` and `joiner`. -/
def line_ending_of (contents : Text) : Text :=
  if Text.contains contents "\r\n".toList then "\r\n".toList else "\n".toList

/-- `derive_new_contents_from_chunks` after the read: the new contents of a file from its
contents. -/
def new_contents_of (path : Path) (chunks : List UpdateFileChunk) (original_contents : Text) :
    Except (Fault ApplyPatchError) Text := do
  let original_lines := original_lines_of original_contents
  let replacements ← (compute_replacements original_lines path chunks).mapError Fault.error
  match apply_replacements original_lines replacements with
  | none => .error .panic
  | some new_lines =>
    let new_lines := if new_lines.getLast? = some [] then new_lines else new_lines ++ [[]]
    .ok (Text.join (line_ending_of original_contents) new_lines)

/-- `derive_new_contents_from_chunks`: the contents of the file and the new ones. The path of
the messages is the one of the hunk, and the file is the one it names from `cwd`. -/
def derive_new_contents_from_chunks {σ : Type} (fs : FileSystem σ) (file path : Path)
    (chunks : List UpdateFileChunk) : Io σ (Fault ApplyPatchError) (Text × Text) := do
  let original_contents ← (fs.read_text_file file).map_err fun err =>
    Fault.error (.IoError ("Failed to read file to update ".toList ++ Path.display path) err)
  let new_contents ← Io.ofExcept (new_contents_of path chunks original_contents)
  pure (original_contents, new_contents)

example : new_contents_of (Path.of_text "a".toList)
    [⟨none, ["b".toList], ["B".toList, "c".toList], false⟩] "a\nb\n".toList =
    .ok "a\nB\nc\n".toList := by decide

/-! ## The path of the messages -/

theorem toOption_bind {ε α β : Type} (x : Except ε α) (f : α → Except ε β) :
    (x >>= f).toOption = x.toOption.bind fun a => (f a).toOption := by
  cases x <;> rfl

theorem toOption_mapError {ε ε' α : Type} (f : ε → ε') (x : Except ε α) :
    (x.mapError f).toOption = x.toOption := by
  cases x <;> rfl

theorem toOption_eq_some {ε α : Type} {x : Except ε α} {a : α} :
    x.toOption = some a ↔ x = .ok a := by
  cases x <;> simp [Except.toOption]

theorem seek_context_path (lines : List Text) (p q : Path) (chunk : UpdateFileChunk) (i : Nat) :
    (seek_context lines p chunk i).toOption = (seek_context lines q chunk i).toOption := by
  unfold seek_context
  rcases chunk.change_context with _ | ctx_line
  · rfl
  · dsimp only
    split <;> rfl

theorem replacement_of_path (lines : List Text) (p q : Path) (chunk : UpdateFileChunk) (i : Nat) :
    (replacement_of lines p chunk i).toOption = (replacement_of lines q chunk i).toOption := by
  unfold replacement_of
  rw [toOption_bind, toOption_bind, seek_context_path lines p q]
  congr 1
  funext line_index
  dsimp only
  split
  · rfl
  · split <;> rfl

theorem replacements_from_path (lines : List Text) (p q : Path) (chunks : List UpdateFileChunk)
    (i : Nat) :
    (replacements_from lines p chunks i).toOption = (replacements_from lines q chunks i).toOption := by
  induction chunks generalizing i with
  | nil => rfl
  | cons chunk chunks ih =>
    simp only [replacements_from, toOption_bind, replacement_of_path lines p q chunk, ih]

/-- The path of the messages decides no new contents. -/
theorem new_contents_of_path (p q : Path) (chunks : List UpdateFileChunk) (contents : Text) :
    (new_contents_of p chunks contents).toOption = (new_contents_of q chunks contents).toOption := by
  unfold new_contents_of compute_replacements
  simp only [toOption_bind, toOption_mapError, replacements_from_path _ p q]

theorem new_contents_of_iff {p q : Path} {chunks : List UpdateFileChunk} {contents new : Text} :
    new_contents_of p chunks contents = .ok new ↔ new_contents_of q chunks contents = .ok new := by
  rw [← toOption_eq_some, new_contents_of_path p q, toOption_eq_some]

end Ecode.apply_patch
