-- What `git apply` printed, read into the paths that were applied, skipped and conflicted
-- (git-apply/src/lib.rs).
import Ecode.Text

namespace Ecode.git_apply

/-- `BTreeSet<String>`. -/
abbrev PathSet := Finset Text

/-- `iter().next_back()`: the greatest path. -/
def next_back (set : PathSet) : Option Text :=
  if h : set.Nonempty then some (set.max' h) else none

/-- A path without blanks around it and without the quotes that it stands in. -/
def unquoted (raw : Text) : Text :=
  let trimmed := Text.trim raw
  let first := trimmed.head?
  if (first = some '"' ∨ first = some '\'') ∧ trimmed.getLast? = first ∧ 2 ≤ Text.len trimmed then
    (trimmed.drop 1).dropLast
  else trimmed

def add (set : PathSet) (raw : Text) : PathSet :=
  if unquoted raw = [] then set else insert (unquoted raw) set

/-! ## The lines -/

def regex_ci (pat : String) : Text := ("(?i)" ++ pat).toList

def APPLIED_CLEAN : Text := regex_ci "^Applied patch(?: to)?\\s+(?P<path>.+?)\\s+cleanly\\.?$"

def APPLIED_CONFLICTS : Text :=
  regex_ci "^Applied patch(?: to)?\\s+(?P<path>.+?)\\s+with conflicts\\.?$"

def APPLYING_WITH_REJECTS : Text :=
  regex_ci "^Applying patch\\s+(?P<path>.+?)\\s+with\\s+\\d+\\s+rejects?\\.\x7b0,3\x7d$"

def CHECKING_PATCH : Text := regex_ci "^Checking patch\\s+(?P<path>.+?)\\.\\.\\.$"

def UNMERGED_LINE : Text := regex_ci "^U\\s+(?P<path>.+)$"

def PATCH_FAILED : Text :=
  regex_ci "^error:\\s+patch failed:\\s+(?P<path>.+?)(?::\\d+)?(?:\\s|$)"

def DOES_NOT_APPLY : Text := regex_ci "^error:\\s+(?P<path>.+?):\\s+patch does not apply$"

def THREE_WAY_START : Text :=
  regex_ci "^(?:Performing three-way merge|Falling back to three-way merge)\\.\\.\\.$"

def THREE_WAY_FAILED : Text := regex_ci "^Failed to perform three-way merge\\.\\.\\.$"

def FALLBACK_DIRECT : Text := regex_ci "^Falling back to direct application\\.\\.\\.$"

def LACKS_BLOB : Text := regex_ci ("^(?:error: )?repository lacks the necessary blob to " ++
  "(?:perform|fall back on) 3-?way merge\\.?$")

def INDEX_MISMATCH : Text := regex_ci "^error:\\s+(?P<path>.+?):\\s+does not match index\\b"

def NOT_IN_INDEX : Text := regex_ci "^error:\\s+(?P<path>.+?):\\s+does not exist in index\\b"

def ALREADY_EXISTS_WT : Text :=
  regex_ci "^error:\\s+(?P<path>.+?)\\s+already exists in (?:the )?working directory\\b"

def FILE_EXISTS : Text := regex_ci "^error:\\s+patch failed:\\s+(?P<path>.+?)\\s+File exists"

def RENAMED_DELETED : Text :=
  regex_ci "^error:\\s+path\\s+(?P<path>.+?)\\s+has been renamed\\/deleted"

def CANNOT_APPLY_BINARY : Text := regex_ci ("^error:\\s+cannot apply binary patch to\\s+" ++
  "['\\\"]?(?P<path>.+?)['\\\"]?\\s+without full index line$")

def BINARY_DOES_NOT_APPLY : Text :=
  regex_ci "^error:\\s+binary patch does not apply to\\s+['\\\"]?(?P<path>.+?)['\\\"]?$"

def BINARY_INCORRECT_RESULT : Text := regex_ci ("^error:\\s+binary patch to\\s+" ++
  "['\\\"]?(?P<path>.+?)['\\\"]?\\s+creates incorrect result\\b")

def CANNOT_READ_CURRENT : Text :=
  regex_ci "^error:\\s+cannot read the current contents of\\s+['\\\"]?(?P<path>.+?)['\\\"]?$"

def SKIPPED_PATCH : Text := regex_ci "^Skipped patch\\s+['\\\"]?(?P<path>.+?)['\\\"]\\.$"

def CANNOT_MERGE_BINARY_WARN : Text := regex_ci ("^warning:\\s*Cannot merge binary files:\\s+" ++
  "(?P<path>.+?)\\s+\\(ours\\s+vs\\.\\s+theirs\\)")

/-- The lines that tell that a patch is skipped, in the order in which they are looked for. -/
def SKIPS : List Text :=
  [INDEX_MISMATCH, NOT_IN_INDEX, ALREADY_EXISTS_WT, FILE_EXISTS, RENAMED_DELETED,
    CANNOT_APPLY_BINARY, BINARY_DOES_NOT_APPLY, BINARY_INCORRECT_RESULT, CANNOT_READ_CURRENT,
    SKIPPED_PATCH]

/-- What a line with a path says about it. -/
inductive Kind where
  | Checking
  | Applied
  | Conflicted
  /-- An early hint that a patch failed. -/
  | Hint
  | Skipped
  deriving DecidableEq, Repr

inductive Line where
  | path (kind : Kind) (raw : Text)
  | three_way_failed
  | other
  deriving DecidableEq, Repr

/-- The groups of a match, by their names. -/
abbrev Captures := Text → Option Text

-- The regex engine is of another package: the captures of a pattern in a line.
variable (captures : Text → Text → Option Captures)

def is_match (pattern line : Text) : Bool := (captures pattern line).isSome

/-- The captures of the first pattern that matches. -/
def first_captures (patterns : List Text) (line : Text) : Option Captures :=
  patterns.findSome? fun pattern => captures pattern line

def with_path (kind : Kind) (c : Captures) : Line :=
  match c "path".toList with
  | some raw => .path kind raw
  | none => .other

/-- The patterns are tried in this order. -/
def read_line (line : Text) : Line :=
  match captures CHECKING_PATCH line with
  | some c => with_path .Checking c
  | none =>
  match captures APPLIED_CLEAN line with
  | some c => with_path .Applied c
  | none =>
  match first_captures captures [APPLIED_CONFLICTS, APPLYING_WITH_REJECTS, UNMERGED_LINE] line with
  | some c => with_path .Conflicted c
  | none =>
  match first_captures captures [PATCH_FAILED, DOES_NOT_APPLY] line with
  | some c => with_path .Hint c
  | none =>
  if is_match captures THREE_WAY_START line || is_match captures FALLBACK_DIRECT line then .other
  else if is_match captures THREE_WAY_FAILED line || is_match captures LACKS_BLOB line then
    .three_way_failed
  else
  match first_captures captures SKIPS line with
  | some c => with_path .Skipped c
  | none =>
  match captures CANNOT_MERGE_BINARY_WARN line with
  | some c => with_path .Conflicted c
  | none => .other

/-- A line of the output: blank lines say nothing. -/
def entry (raw_line : Text) : Line :=
  let line := Text.trim raw_line
  if line = [] then .other else read_line captures line

/-! ## The three sets -/

structure State where
  applied : PathSet
  skipped : PathSet
  conflicted : PathSet
  last_seen_path : Option Text
  deriving DecidableEq

def start : State := ⟨∅, ∅, ∅, none⟩

/-- The path that was added is taken to be the greatest one of the set. -/
def State.record_applied (s : State) (raw : Text) : State :=
  let applied := add s.applied raw
  match next_back applied with
  | some p => ⟨applied, s.skipped.erase p, s.conflicted.erase p, some p⟩
  | none => { s with applied }

def State.record_conflicted (s : State) (raw : Text) : State :=
  let conflicted := add s.conflicted raw
  match next_back conflicted with
  | some p => ⟨s.applied.erase p, s.skipped.erase p, conflicted, some p⟩
  | none => { s with conflicted }

def State.record_skipped (s : State) (raw : Text) : State :=
  let skipped := add s.skipped raw
  match next_back skipped with
  | some p => ⟨s.applied.erase p, skipped, s.conflicted.erase p, some p⟩
  | none => { s with skipped }

/-- A path is skipped, and nothing else. -/
def State.charge (s : State) (p : Text) : State :=
  { s with
    applied := s.applied.erase p
    skipped := add s.skipped p
    conflicted := s.conflicted.erase p }

def State.step (s : State) : Line → State
  | .path .Checking raw => { s with last_seen_path := some raw }
  | .path .Applied raw => s.record_applied raw
  | .path .Conflicted raw => s.record_conflicted raw
  | .path .Hint raw => { s with skipped := add s.skipped raw, last_seen_path := some raw }
  | .path .Skipped raw => s.record_skipped raw
  | .three_way_failed =>
    match s.last_seen_path with
    | some p => s.charge p
    | none => s
  | .other => s

def parse_lines (lines : List Text) : State :=
  lines.foldl (fun s line => s.step (entry captures line)) start

structure Output where
  applied_paths : List Text
  skipped_paths : List Text
  conflicted_paths : List Text
  deriving DecidableEq, Repr

/-- Conflicts come before applied paths, and these before skipped ones. -/
def State.finish (s : State) : Output where
  applied_paths := (s.applied \ s.conflicted).sort
  skipped_paths := ((s.skipped \ s.conflicted) \ (s.applied \ s.conflicted)).sort
  conflicted_paths := s.conflicted.sort

/-- The lines of both outputs, one behind the other. -/
def output_lines (stdout stderr : Text) : List Text :=
  Text.lines (Text.join ['\n'] ([stdout, stderr].filter (· ≠ [])))

def parse_git_apply_output (stdout stderr : Text) : Output :=
  (parse_lines captures (output_lines stdout stderr)).finish

end Ecode.git_apply
