-- Which commands rewrite files, whether a command is their dry run, and the dry run that is
-- proposed in its place (core/src/dry_run_guard.rs).
import Ecode.Paths

namespace Ecode.dry_run_guard

inductive PackageManager where
  | Npm
  | Pnpm
  | Yarn
  deriving DecidableEq, Repr

def PackageManager.label : PackageManager → Text
  | .Npm => "npm".toList
  | .Pnpm => "pnpm".toList
  | .Yarn => "yarn".toList

inductive DryRunGuardKey where
  | CargoFmt
  | CargoFix
  | CargoClippyFix
  | Rustfmt
  | PackageLint (manager : PackageManager)
  | PackageFormat (manager : PackageManager)
  | EslintFix
  | PrettierWrite
  | Black
  | RuffFormat
  | Isort
  | Gofmt
  | Rustywind
  | DartFormat
  | SwiftFormat
  deriving DecidableEq, Repr

inductive DryRunDisposition where
  | DryRun
  | Mutating
  deriving DecidableEq, Repr

structure InternalAnalysis where
  key : DryRunGuardKey
  disposition : DryRunDisposition
  display_name : Text
  suggested_dry_run : Option Text
  deriving DecidableEq, Repr

/-- What every analysis returns; none of them has a suggestion of its own. -/
def analysis (key : DryRunGuardKey) (is_dry : Bool) (display_name : Text) : InternalAnalysis :=
  ⟨key, if is_dry then .DryRun else .Mutating, display_name, none⟩

/-! ## Reading tokens -/

def equal_ignore_case (left : Text) (right : String) : Bool :=
  Text.eq_ignore_ascii_case left right.toList

def command_basename (token : Text) : Text :=
  let trimmed := Text.trim_matches '\'' (Text.trim_matches '"' token)
  Text.to_ascii_lowercase ((Path.file_name (Path.of_text trimmed)).getD trimmed)

def slice_contains_flag (args : List Text) (flag : String) : Bool :=
  args.any fun arg => equal_ignore_case arg flag

def is_separator (token : Text) : Bool := token == "--".toList

def is_flag (token : Text) : Bool := Text.starts_with token ['-']

def skip_leading_flags : List Text → List Text
  | [] => []
  | token :: tokens =>
    if is_separator token then tokens
    else if is_flag token then skip_leading_flags tokens
    else token :: tokens

theorem skip_leading_flags_length (tokens : List Text) :
    (skip_leading_flags tokens).length ≤ tokens.length := by
  induction tokens with
  | nil => exact le_refl _
  | cons token tokens ih =>
    unfold skip_leading_flags
    split_ifs
    · simp
    · simp only [List.length_cons]
      omega
    · exact le_refl _

/-- The command that runs another one, as its tokens, and what stands after it. -/
def split_exec_wrapper : List Text → Option (List Text × List Text)
  | [] => none
  | first :: rest =>
    let base := command_basename first
    if base = "npx".toList ∨ base = "bunx".toList then some ([first], rest)
    else
      match rest with
      | [] => none
      | second :: rest =>
        let runs :=
          (base = "pnpm".toList ∧ (second = "exec".toList ∨ second = "dlx".toList)) ∨
          (base = "yarn".toList ∧
            (command_basename second = "exec".toList ∨ command_basename second = "dlx".toList))
        if runs then some ([first, second], rest) else none

theorem split_exec_wrapper_append {tokens command rest : List Text}
    (h : split_exec_wrapper tokens = some (command, rest)) :
    tokens = command ++ rest ∧ command ≠ [] := by
  unfold split_exec_wrapper at h
  split at h
  · cases h
  · dsimp only at h
    split_ifs at h
    · obtain ⟨rfl, rfl⟩ := Prod.mk.inj (Option.some.inj h)
      simp
    · split at h
      · cases h
      · split_ifs at h
        obtain ⟨rfl, rfl⟩ := Prod.mk.inj (Option.some.inj h)
        simp

theorem peeled_length {tokens command rest : List Text}
    (h : split_exec_wrapper tokens = some (command, rest)) :
    (skip_leading_flags rest).length < tokens.length := by
  obtain ⟨rfl, hne⟩ := split_exec_wrapper_append h
  have hpos := List.length_pos_iff.mpr hne
  have hle := skip_leading_flags_length rest
  simp only [List.length_append]
  omega

/-- `peel_exec_wrappers`: the command that is run in the end. -/
def peel_exec_wrappers (tokens : List Text) : List Text :=
  match h : split_exec_wrapper tokens with
  | none => tokens
  | some (_, rest) =>
    have : (skip_leading_flags rest).length < tokens.length := peeled_length h
    peel_exec_wrappers (skip_leading_flags rest)
termination_by tokens.length

/-! ## Cargo and rustfmt -/

/-- A token that chooses a toolchain. -/
def is_toolchain (token : Text) : Bool := Text.starts_with token ['+']

def analyze_cargo : List Text → Option InternalAnalysis
  | [] => none
  | first :: rest =>
    if equal_ignore_case first "cargo" then
      match rest.dropWhile is_toolchain with
      | [] => none
      | token :: args =>
        let sub := command_basename token
        if sub = "fmt".toList then
          some (analysis .CargoFmt (slice_contains_flag args "--check") "cargo fmt".toList)
        else if sub = "fix".toList then
          some (analysis .CargoFix (slice_contains_flag args "--dry-run") "cargo fix".toList)
        else if sub = "clippy".toList then
          if slice_contains_flag args "--fix" then
            some (analysis .CargoClippyFix (slice_contains_flag args "--dry-run")
              "cargo clippy --fix".toList)
          else none
        else none
    else none

def analyze_rustfmt : List Text → Option InternalAnalysis
  | [] => none
  | first :: args =>
    if equal_ignore_case first "rustfmt" then
      some (analysis .Rustfmt (slice_contains_flag args "--check") "rustfmt".toList)
    else none

/-! ## Formatters that are called by name -/

/-- A tool that is known by the name of its program. -/
structure Tool where
  name : Text
  key : DryRunGuardKey
  display_name : Text
  /-- Whether the command, with the program in front, is one that may write. -/
  applies : List Text → Bool
  /-- The flags of a dry run. -/
  dry : Text → Bool
  /-- Whether the program itself is left out when these flags are looked for. -/
  args_only : Bool

def Tool.is_dry (tool : Tool) (actual : List Text) : Bool :=
  (if tool.args_only then actual.tail else actual).any tool.dry

def formats (actual : List Text) : Bool :=
  match actual[1]? with
  | some token => equal_ignore_case token "format"
  | none => false

def is_write_flag (token : Text) : Bool :=
  equal_ignore_case token "--write" || token == "-w".toList

def is_gofmt_write_flag (token : Text) : Bool :=
  token == "-w".toList || Text.starts_with token "-w=".toList

def eslint : Tool where
  name := "eslint".toList
  key := .EslintFix
  display_name := "eslint --fix".toList
  applies actual := actual.any fun t => equal_ignore_case t "--fix"
  dry t := equal_ignore_case t "--fix-dry-run" || equal_ignore_case t "--dry-run"
  args_only := false

def prettier : Tool where
  name := "prettier".toList
  key := .PrettierWrite
  display_name := "prettier --write".toList
  applies actual := actual.any is_write_flag
  dry t :=
    equal_ignore_case t "--check" || equal_ignore_case t "--list-different" ||
      equal_ignore_case t "--dry-run"
  args_only := false

def black : Tool where
  name := "black".toList
  key := .Black
  display_name := "black".toList
  applies _ := true
  dry t := equal_ignore_case t "--check"
  args_only := false

def ruff : Tool where
  name := "ruff".toList
  key := .RuffFormat
  display_name := "ruff format".toList
  applies := formats
  dry t := equal_ignore_case t "--check"
  args_only := true

def isort : Tool where
  name := "isort".toList
  key := .Isort
  display_name := "isort".toList
  applies _ := true
  dry t := equal_ignore_case t "--check-only"
  args_only := false

def gofmt : Tool where
  name := "gofmt".toList
  key := .Gofmt
  display_name := "gofmt -w".toList
  applies actual := actual.any is_gofmt_write_flag
  dry t := t == "-d".toList || t == "-l".toList || t == "-n".toList
  args_only := false

def rustywind : Tool where
  name := "rustywind".toList
  key := .Rustywind
  display_name := "rustywind".toList
  applies _ := true
  dry t := equal_ignore_case t "--check"
  args_only := false

def dart : Tool where
  name := "dart".toList
  key := .DartFormat
  display_name := "dart format".toList
  applies := formats
  dry t := equal_ignore_case t "--dry-run"
  args_only := false

def swiftformat : Tool where
  name := "swiftformat".toList
  key := .SwiftFormat
  display_name := "swiftformat".toList
  applies _ := true
  dry t := equal_ignore_case t "--lint" || equal_ignore_case t "--dryrun"
  args_only := false

def TOOLS : List Tool :=
  [eslint, prettier, black, ruff, isort, gofmt, rustywind, dart, swiftformat]

/-- The tool that the program of a command names. -/
def named_tool : List Text → Option Tool
  | [] => none
  | first :: _ => TOOLS.find? fun tool => tool.name == command_basename first

/-- `analyze_direct_formatter` of a command without wrappers. -/
def analyze_tool (actual : List Text) : Option InternalAnalysis := do
  let tool ← named_tool actual
  if tool.applies actual then some (analysis tool.key (tool.is_dry actual) tool.display_name)
  else none

def analyze_direct_formatter (tokens : List Text) : Option InternalAnalysis :=
  analyze_tool (peel_exec_wrappers tokens)

/-! ## Scripts of package managers -/

def locate_npm_script (tokens : List Text) : Option (Nat × Text) := do
  let second ← tokens[1]?
  if equal_ignore_case second "run" then do
    let script ← tokens[2]?
    some (2, script)
  else some (1, second)

def locate_simple_script (tokens : List Text) : Option (Nat × Text) := do
  let script ← tokens[1]?
  some (1, script)

def locate_package_script (tokens : List Text) : PackageManager → Option (Nat × Text)
  | .Npm => locate_npm_script tokens
  | .Pnpm | .Yarn => locate_simple_script tokens

def script_contains (script : Text) (part : String) : Bool :=
  Text.contains (Text.to_ascii_lowercase script) part.toList

/-- The key of a script, by its name. -/
def script_key (manager : PackageManager) (script : Text) : Option DryRunGuardKey :=
  if script_contains script "lint" then some (.PackageLint manager)
  else if script_contains script "format" || script_contains script "fmt" ||
      script_contains script "prettier" then some (.PackageFormat manager)
  else none

def is_script_dry_flag (arg : Text) : Bool :=
  let lower := Text.to_ascii_lowercase arg
  equal_ignore_case arg "--check" || equal_ignore_case arg "--dry-run" ||
    equal_ignore_case arg "--no-fix" || Text.contains lower "fix=false".toList ||
    Text.contains lower "write=false".toList || Text.contains lower "mode=check".toList

def runs_program (script : Text) : Bool :=
  equal_ignore_case script "exec" || equal_ignore_case script "dlx"

def analyze_package_manager (tokens : List Text) (manager : PackageManager) :
    Option InternalAnalysis :=
  match tokens with
  | [] => none
  | first :: _ =>
    if Text.eq_ignore_ascii_case first manager.label then
      match locate_package_script tokens manager with
      | none => none
      | some (script_idx, script) =>
        if runs_program script then analyze_direct_formatter tokens
        else
          (script_key manager script).map fun key =>
            analysis key ((tokens.drop (script_idx + 1)).any is_script_dry_flag)
              (manager.label ++ [' '] ++ script)
    else none

/-! ## The analysis of a command -/

def analyze_tokens (tokens : List Text) : Option InternalAnalysis :=
  (analyze_cargo tokens).or
    ((analyze_rustfmt tokens).or
      ((analyze_package_manager tokens .Npm).or
        ((analyze_package_manager tokens .Pnpm).or
          ((analyze_package_manager tokens .Yarn).or (analyze_direct_formatter tokens)))))

structure DryRunAnalysis where
  key : DryRunGuardKey
  disposition : DryRunDisposition
  tokens : List Text
  display_name : Text
  custom_suggested_dry_run : Option Text
  deriving DecidableEq, Repr

/-- What `analyze_command` makes of the tokens of a command. -/
def analyze_command_tokens (tokens : List Text) : Option DryRunAnalysis :=
  (analyze_tokens tokens).map fun a =>
    ⟨a.key, a.disposition, tokens, a.display_name, a.suggested_dry_run⟩

/-! ## The proposed dry runs, as tokens -/

/-- `insert`, before the first separator or at the end. -/
def insert_before_separator (tokens : List Text) (flag : String) : List Text :=
  tokens.insertIdx (tokens.findIdx is_separator) flag.toList

def suggest_cargo_fmt_dry_run (tokens : List Text) : List Text :=
  match tokens.findIdx? is_separator with
  | some pos =>
    if slice_contains_flag (tokens.drop (pos + 1)) "--check" then tokens
    else tokens.insertIdx (pos + 1) "--check".toList
  | none => tokens ++ ["--".toList, "--check".toList]

def suggest_cargo_fix_dry_run (tokens : List Text) : List Text :=
  if slice_contains_flag tokens "--dry-run" then tokens
  else insert_before_separator tokens "--dry-run"

/-- The first `--fix` is left out. -/
def suggest_cargo_clippy_dry_run (tokens : List Text) : List Text :=
  tokens.eraseP fun t => equal_ignore_case t "--fix"

def suggest_append_flag (tokens : List Text) (flag : String) : List Text :=
  if slice_contains_flag tokens flag then tokens else tokens ++ [flag.toList]

def suggest_rustfmt_dry_run (tokens : List Text) : List Text := suggest_append_flag tokens "--check"

def suggest_package_script_dry_run (tokens : List Text) (preferred_flag fallback_flag : String) :
    List Text :=
  if tokens.any fun t => equal_ignore_case t preferred_flag || equal_ignore_case t fallback_flag
  then tokens
  else tokens ++ ["--".toList, preferred_flag.toList]

def suggest_eslint_fix_dry_run (tokens : List Text) : List Text :=
  if tokens.any eslint.dry then tokens else insert_before_separator tokens "--fix-dry-run"

def suggest_prettier_write_dry_run (tokens : List Text) : List Text :=
  if tokens.any fun t => equal_ignore_case t "--check" || equal_ignore_case t "--list-different"
  then tokens
  else
    match tokens.findIdx? is_write_flag with
    | some pos => tokens.set pos "--check".toList
    | none => tokens ++ ["--check".toList]

def suggest_gofmt_dry_run (tokens : List Text) : List Text :=
  match tokens.findIdx? is_gofmt_write_flag with
  | some pos => tokens.set pos "-d".toList
  | none => tokens ++ ["-d".toList]

def suggest_swiftformat_dry_run (tokens : List Text) : List Text :=
  if tokens.any swiftformat.dry then tokens else tokens ++ ["--lint".toList]

/-- The tokens of the dry run that is proposed for a command of this key. -/
def suggested_tokens (tokens : List Text) : DryRunGuardKey → List Text
  | .CargoFmt => suggest_cargo_fmt_dry_run tokens
  | .CargoFix => suggest_cargo_fix_dry_run tokens
  | .CargoClippyFix => suggest_cargo_clippy_dry_run tokens
  | .Rustfmt => suggest_rustfmt_dry_run tokens
  | .PackageLint _ => suggest_package_script_dry_run tokens "--dry-run" "--check"
  | .PackageFormat _ => suggest_package_script_dry_run tokens "--check" "--dry-run"
  | .EslintFix => suggest_eslint_fix_dry_run tokens
  | .PrettierWrite => suggest_prettier_write_dry_run tokens
  | .Black => suggest_append_flag tokens "--check"
  | .RuffFormat => suggest_append_flag tokens "--check"
  | .Isort => suggest_append_flag tokens "--check-only"
  | .Gofmt => suggest_gofmt_dry_run tokens
  | .Rustywind => suggest_append_flag tokens "--check"
  | .DartFormat => suggest_append_flag tokens "--dry-run"
  | .SwiftFormat => suggest_swiftformat_dry_run tokens

/-- The proposed command: its tokens, joined. -/
def DryRunAnalysis.suggested_dry_run (a : DryRunAnalysis) : Option Text :=
  match a.custom_suggested_dry_run with
  | some custom => some custom
  | none => some (Text.join [' '] (suggested_tokens a.tokens a.key))

end Ecode.dry_run_guard
