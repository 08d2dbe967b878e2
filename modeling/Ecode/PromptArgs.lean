-- Custom prompts and their placeholders (tui/src/bottom_pane/prompt_args.rs).
import Ecode.KeyedLists
import Ecode.PowerShell

namespace Ecode.prompt_args

open windows_safe_commands (split_once)

structure CustomPrompt where
  name : Text
  content : Text

inductive PromptArgsError where
  | MissingAssignment (token : Text)
  | MissingKey (token : Text)
  deriving DecidableEq

inductive PromptExpansionError where
  | Args (command : Text) (error : PromptArgsError)
  | MissingArgs (command : Text) (missing : List Text)
  deriving DecidableEq

def PROMPTS_CMD_PREFIX : Text := "prompts".toList

def ARGUMENTS : Text := "ARGUMENTS".toList

def parse_slash_name (line : Text) : Option (Text × Text) :=
  match Text.strip_prefix line ['/'] with
  | none => none
  | some stripped =>
    let name := stripped.takeWhile fun ch => !Text.is_whitespace ch
    if name.isEmpty then none
    else some (name, Text.trim_start (stripped.dropWhile fun ch => !Text.is_whitespace ch))

/-! ## `PROMPT_ARG_REGEX`: `\$[A-Z][A-Z0-9_]*` -/

def is_upper (c : Char) : Bool := 'A' ≤ c && c ≤ 'Z'

def is_name_char (c : Char) : Bool := is_upper c || c.isDigit || c == '_'

/-- The name that a `$` before the text makes a match of. -/
def name_at (t : Text) : Option Text :=
  if t.head?.any is_upper then some (t.takeWhile is_name_char) else none

/-- The matches and the characters between them. Of the character before a match only matters
whether it is a `$`. -/
inductive Segment where
  | plain (c : Char)
  | found (after_dollar : Bool) (name : Text)
  deriving DecidableEq

/-- The segments, from `skip` characters on. -/
def segments : Bool → Nat → Text → List Segment
  | _, _, [] => []
  | _, skip + 1, c :: t => segments (c == '$') skip t
  | after_dollar, 0, c :: t =>
    match if c = '$' then name_at t else none with
    | some name => .found after_dollar name :: segments (c == '$') name.length t
    | none => .plain c :: segments (c == '$') 0 t

/-- `PROMPT_ARG_REGEX.find_iter`, with what stands before each match. -/
def find_iter (content : Text) : List (Bool × Text) :=
  (segments false 0 content).filterMap fun
    | .plain _ => none
    | .found after_dollar name => some (after_dollar, name)

def prompt_argument_names (content : Text) : List Text :=
  (find_iter content).foldl (fun names m =>
    if m.1 || m.2 == ARGUMENTS then names
    else if m.2 ∈ names then names
    else names ++ [m.2]) []

/-! ## Named placeholders -/

/-- The loop of `parse_prompt_inputs`. -/
def parse_tokens : List (Text × Text) → List Text → Except PromptArgsError (List (Text × Text))
  | map, [] => .ok map
  | map, token :: tokens =>
    match split_once '=' token with
    | none => .error (.MissingAssignment token)
    | some (key, value) =>
      if key.isEmpty then .error (.MissingKey token)
      else parse_tokens (keyed.insert Prod.fst map (key, value)) tokens

-- `Shlex::new(rest).collect()` is of another package.
variable (shlex : Text → List Text)

def parse_prompt_inputs (rest : Text) : Except PromptArgsError (List (Text × Text)) :=
  if (Text.trim rest).isEmpty then .ok [] else parse_tokens [] (shlex rest)

/-- What `PROMPT_ARG_REGEX.replace_all` puts in the place of a segment. -/
def replacement (inputs : List (Text × Text)) : Segment → Text
  | .plain c => [c]
  | .found true name => '$' :: name
  | .found false name => ((keyed.get Prod.fst inputs name).map Prod.snd).getD ('$' :: name)

def replace_all (inputs : List (Text × Text)) (content : Text) : Text :=
  (segments false 0 content).flatMap (replacement inputs)

/-! ## Numeric placeholders -/

/-- The index of `$1` to `$9`, read behind the `$`. -/
def position_at (t : Text) : Option Nat :=
  (t.head?.filter fun d => '1' ≤ d && d ≤ '9').map fun d => d.toNat - '1'.toNat

def has_position : Text → Bool
  | [] => false
  | c :: t => (c == '$' && (position_at t).isSome) || has_position t

def prompt_has_numeric_placeholders (content : Text) : Bool :=
  if Text.contains content ('$' :: ARGUMENTS) then true else has_position content

/-- The loop of `expand_numeric_placeholders`, from `skip` characters on. -/
def expand_from (args : List Text) : Nat → Text → Text
  | _, [] => []
  | skip + 1, _ :: t => expand_from args skip t
  | 0, c :: t =>
    if c ≠ '$' then c :: expand_from args 0 t
    else if t.head? = some '$' then '$' :: '$' :: expand_from args 1 t
    else
      match position_at t with
      | some idx => args.getD idx [] ++ expand_from args 1 t
      | none =>
        if Text.starts_with t ARGUMENTS then
          Text.join [' '] args ++ expand_from args ARGUMENTS.length t
        else '$' :: expand_from args 0 t

def expand_numeric_placeholders (content : Text) (args : List Text) : Text :=
  expand_from args 0 content

/-! ## The expansion -/

/-- What `expand_custom_prompt` does with the prompt it has found. -/
def expand_prompt (name rest content : Text) : Except PromptExpansionError Text :=
  let required := prompt_argument_names content
  if !required.isEmpty then
    match parse_prompt_inputs shlex rest with
    | .error error => .error (.Args ('/' :: name) error)
    | .ok inputs =>
      let missing := required.filter fun k => (keyed.get Prod.fst inputs k).isNone
      if !missing.isEmpty then .error (.MissingArgs ('/' :: name) missing)
      else .ok (replace_all inputs content)
  else if prompt_has_numeric_placeholders content then
    .ok (expand_numeric_placeholders content (shlex rest))
  else if !(Text.trim rest).isEmpty then
    let combined := if Text.ends_with content ['\n'] then content else content ++ ['\n']
    .ok (combined ++ Text.trim rest)
  else .ok content

/-- The prompt that a command names: with the prefix, or by a name that no built-in has. -/
def find_prompt (builtins : List Text) (name : Text) (custom_prompts : List CustomPrompt) :
    Option CustomPrompt :=
  let prompt_name :=
    match Text.strip_prefix name (PROMPTS_CMD_PREFIX ++ [':']) with
    | some after_prefix => some after_prefix
    | none => if name ∈ builtins then none else some name
  prompt_name.bind fun prompt_name => custom_prompts.find? fun p => p.name == prompt_name

def expand_custom_prompt (builtins : List Text) (text : Text)
    (custom_prompts : List CustomPrompt) : Except PromptExpansionError (Option Text) :=
  match parse_slash_name text with
  | none => .ok none
  | some (name, rest) =>
    match find_prompt builtins name custom_prompts with
    | none => .ok none
    | some prompt => (expand_prompt shlex name rest prompt.content).map some

end Ecode.prompt_args
