-- The patch grammar (apply-patch/src/parser.rs): a patch text is read into
-- hunks, with the message and the line number of every error.
import Ecode.Paths

namespace Ecode.apply_patch

def BEGIN_PATCH_MARKER : Text := "*** Begin Patch".toList
def END_PATCH_MARKER : Text := "*** End Patch".toList
def ADD_FILE_MARKER : Text := "*** Add File: ".toList
def DELETE_FILE_MARKER : Text := "*** Delete File: ".toList
def UPDATE_FILE_MARKER : Text := "*** Update File: ".toList
def MOVE_TO_MARKER : Text := "*** Move to: ".toList
def EOF_MARKER : Text := "*** End of File".toList
def CHANGE_CONTEXT_MARKER : Text := "@@ ".toList
def EMPTY_CHANGE_CONTEXT_MARKER : Text := "@@".toList

inductive ParseError where
  | InvalidPatchError (message : Text)
  | InvalidHunkError (message : Text) (line_number : Nat)
  deriving DecidableEq, Repr

structure UpdateFileChunk where
  change_context : Option Text
  old_lines : List Text
  new_lines : List Text
  is_end_of_file : Bool
  deriving DecidableEq, Repr

inductive Hunk where
  | AddFile (path : Path) (contents : Text)
  | DeleteFile (path : Path)
  | UpdateFile (path : Path) (move_path : Option Path) (chunks : List UpdateFileChunk)
  deriving DecidableEq, Repr

def Hunk.path : Hunk → Path
  | .AddFile path _ => path
  | .DeleteFile path => path
  | .UpdateFile path _ _ => path

def Hunk.resolve_path (h : Hunk) (cwd : Path) : Path := Path.join cwd h.path

/-- `ApplyPatchArgs`: the patch without a heredoc around it, and its hunks. -/
structure ApplyPatchArgs where
  patch : Text
  hunks : List Hunk
  workdir : Option Text
  deriving DecidableEq, Repr

/-! ## The chunks of an update -/

def NO_LINES : Text := "Update hunk does not contain any lines".toList

/-- The loop of `parse_update_file_chunk`. It ends at the end of file marker, and at the
first line that is no line of a chunk when the chunk has a line. -/
def chunk_body (line_number : Nat) :
    List Text → UpdateFileChunk → Nat → Except ParseError (UpdateFileChunk × Nat)
  | [], chunk, parsed_lines => .ok (chunk, parsed_lines)
  | line :: rest, chunk, parsed_lines =>
    if line = EOF_MARKER then
      if parsed_lines = 0 then .error (.InvalidHunkError NO_LINES (line_number + 1))
      else .ok ({ chunk with is_end_of_file := true }, parsed_lines + 1)
    else match line with
      | [] =>
        chunk_body line_number rest
          { chunk with old_lines := chunk.old_lines ++ [[]], new_lines := chunk.new_lines ++ [[]] }
          (parsed_lines + 1)
      | ' ' :: t =>
        chunk_body line_number rest
          { chunk with old_lines := chunk.old_lines ++ [t], new_lines := chunk.new_lines ++ [t] }
          (parsed_lines + 1)
      | '+' :: t =>
        chunk_body line_number rest { chunk with new_lines := chunk.new_lines ++ [t] }
          (parsed_lines + 1)
      | '-' :: t =>
        chunk_body line_number rest { chunk with old_lines := chunk.old_lines ++ [t] }
          (parsed_lines + 1)
      | _ =>
        if parsed_lines = 0 then
          .error (.InvalidHunkError
            ("Unexpected line found in update hunk: '".toList ++ line ++
              "'. Every line should start with ' ' (context line), '+' (added line), or '-' (removed line)".toList)
            (line_number + 1))
        else .ok (chunk, parsed_lines)

def parse_update_file_chunk (lines : List Text) (line_number : Nat)
    (allow_missing_context : Bool) : Except ParseError (UpdateFileChunk × Nat) :=
  match lines with
  | [] => .error (.InvalidHunkError NO_LINES line_number)
  | first :: _ => do
    let (change_context, start_index) ←
      if first = EMPTY_CHANGE_CONTEXT_MARKER then .ok (none, 1)
      else match Text.strip_prefix first CHANGE_CONTEXT_MARKER with
        | some context => .ok (some context, 1)
        | none =>
          if allow_missing_context then .ok (none, 0)
          else .error (.InvalidHunkError
            ("Expected update hunk to start with a @@ context marker, got: '".toList ++ first ++
              "'".toList) line_number)
    if lines.length ≤ start_index then .error (.InvalidHunkError NO_LINES (line_number + 1))
    else do
      let (chunk, parsed_lines) ← chunk_body line_number (lines.drop start_index)
        { change_context, old_lines := [], new_lines := [], is_end_of_file := false } 0
      .ok (chunk, parsed_lines + start_index)

/-- The loop over the chunks of one update hunk. The `fuel` is one for each line that is
left: a chunk takes one line or more, so the loop never runs out of it. -/
def parse_chunks (line_number : Nat) : Nat → List Text → Nat → List UpdateFileChunk →
    Except ParseError (List UpdateFileChunk × Nat)
  | _, [], parsed_lines, chunks => .ok (chunks, parsed_lines)
  | 0, _ :: _, parsed_lines, chunks => .ok (chunks, parsed_lines)
  | fuel + 1, first :: rest, parsed_lines, chunks =>
    if Text.trim first = [] then parse_chunks line_number fuel rest (parsed_lines + 1) chunks
    else if Text.starts_with first "***".toList then .ok (chunks, parsed_lines)
    else do
      let (chunk, chunk_lines) ←
        parse_update_file_chunk (first :: rest) (line_number + parsed_lines) chunks.isEmpty
      parse_chunks line_number fuel ((first :: rest).drop chunk_lines) (parsed_lines + chunk_lines)
        (chunks ++ [chunk])

/-! ## One hunk -/

/-- The lines of an added file: each line after its `+`, up to the first line without one. -/
def added_lines : List Text → List Text
  | ('+' :: t) :: rest => t :: added_lines rest
  | _ => []

/-- `parse_one_hunk`: the first hunk of the lines and the lines it takes. -/
def parse_one_hunk (lines : List Text) (line_number : Nat) : Except ParseError (Hunk × Nat) :=
  let first_line := Text.trim (lines.headD [])
  match Text.strip_prefix first_line ADD_FILE_MARKER with
  | some path =>
    let added := added_lines lines.tail
    .ok (.AddFile (Path.of_text path) (added.flatMap (· ++ ['\n'])), added.length + 1)
  | none =>
    match Text.strip_prefix first_line DELETE_FILE_MARKER with
    | some path => .ok (.DeleteFile (Path.of_text path), 1)
    | none =>
      match Text.strip_prefix first_line UPDATE_FILE_MARKER with
      | some path => do
        let move_path := lines.tail.head?.bind fun line => Text.strip_prefix line MOVE_TO_MARKER
        let skip := if move_path.isSome then 1 else 0
        let remaining_lines := lines.tail.drop skip
        let (chunks, parsed_lines) ←
          parse_chunks line_number remaining_lines.length remaining_lines (1 + skip) []
        if chunks.isEmpty then
          .error (.InvalidHunkError
            ("Update file hunk for path '".toList ++ path ++ "' is empty".toList) line_number)
        else .ok (.UpdateFile (Path.of_text path) (move_path.map Path.of_text) chunks, parsed_lines)
      | none =>
        .error (.InvalidHunkError
          ("'".toList ++ first_line ++
            "' is not a valid hunk header. Valid hunk headers: '*** Add File: \x7bpath\x7d', '*** Delete File: \x7bpath\x7d', '*** Update File: \x7bpath\x7d'".toList)
          line_number)

/-! ## The whole patch -/

def check_start_and_end_lines_strict (first_line last_line : Option Text) : Except ParseError Unit :=
  if first_line = some BEGIN_PATCH_MARKER ∧ last_line = some END_PATCH_MARKER then .ok ()
  else if first_line.isSome ∧ first_line ≠ some BEGIN_PATCH_MARKER then
    .error (.InvalidPatchError "The first line of the patch must be '*** Begin Patch'".toList)
  else .error (.InvalidPatchError "The last line of the patch must be '*** End Patch'".toList)

def check_patch_boundaries_strict (lines : List Text) : Except ParseError Unit :=
  check_start_and_end_lines_strict lines.head? lines.getLast?

/-- `check_patch_boundaries_lenient`: a heredoc around the patch is taken off. -/
def check_patch_boundaries_lenient (original_lines : List Text)
    (original_parse_error : ParseError) : Except ParseError (List Text) :=
  match original_lines with
  | first :: _ :: _ =>
    if first ∈ ["<<EOF".toList, "<<'EOF'".toList, "<<\"EOF\"".toList] ∧
        Text.ends_with (original_lines.getLastD []) "EOF".toList ∧ 4 ≤ original_lines.length then do
      let inner_lines := original_lines.tail.dropLast
      check_patch_boundaries_strict inner_lines
      .ok inner_lines
    else .error original_parse_error
  | _ => .error original_parse_error

/-- The loop of `parse_patch_text`, with one unit of `fuel` for each line. -/
def parse_hunks : Nat → List Text → Nat → Except ParseError (List Hunk)
  | _, [], _ => .ok []
  | 0, _ :: _, _ => .ok []
  | fuel + 1, first :: rest, line_number => do
    let (hunk, hunk_lines) ← parse_one_hunk (first :: rest) line_number
    let hunks ← parse_hunks fuel ((first :: rest).drop hunk_lines) (line_number + hunk_lines)
    .ok (hunk :: hunks)

/-- `parse_patch`, which always parses in lenient mode. -/
def parse_patch (patch : Text) : Except ParseError ApplyPatchArgs := do
  let lines := Text.lines (Text.trim patch)
  let lines ← match check_patch_boundaries_strict lines with
    | .ok () => .ok lines
    | .error e => check_patch_boundaries_lenient lines e
  let remaining_lines := lines.dropLast.tail
  let hunks ← parse_hunks remaining_lines.length remaining_lines 2
  .ok { patch := Text.join ['\n'] lines, hunks, workdir := none }

example : (parse_patch "*** Begin Patch\n*** Add File: foo\n+hi\n*** End Patch\n".toList).map
    ApplyPatchArgs.hunks = .ok [.AddFile (Path.of_text "foo".toList) "hi\n".toList] := by decide

example : parse_patch "*** Begin Patch\n*** Update File: test.py\n*** End Patch".toList =
    .error (.InvalidHunkError "Update file hunk for path 'test.py' is empty".toList 2) := by decide

end Ecode.apply_patch
