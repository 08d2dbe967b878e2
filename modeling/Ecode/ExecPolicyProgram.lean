-- What the policy makes of the options of a call, and the check of the files of a call that it
-- accepts (execpolicy/src/opt.rs, valid_exec.rs, program.rs, execv_checker.rs).
import Ecode.ExecPolicy

namespace Ecode.execpolicy

inductive OptMeta where
  | Flag
  | Value (type : ArgType)
  deriving DecidableEq, Repr

structure Opt where
  opt : Text
  opt_meta : OptMeta
  required : Bool
  deriving DecidableEq, Repr

structure ExecCall where
  program : Text
  args : List Text
  deriving DecidableEq, Repr

structure MatchedFlag where
  name : Text
  deriving DecidableEq, Repr

structure MatchedOpt where
  name : Text
  value : Text
  type : ArgType
  deriving DecidableEq, Repr

def MatchedOpt.new (name value : Text) (type : ArgType) : Result MatchedOpt := do
  type.validate value
  return ⟨name, value, type⟩

structure ValidExec where
  program : Text
  flags : List MatchedFlag
  opts : List MatchedOpt
  args : List MatchedArg
  system_path : List Text
  deriving DecidableEq, Repr

/-- A program of the policy. The keys of `allowed_options` differ. -/
structure ProgramSpec where
  program : Text
  system_path : List Text
  allowed_options : List (Text × Opt)
  arg_patterns : List ArgMatcher
  forbidden : Option Text
  required_options : List Text
  deriving DecidableEq, Repr

def ProgramSpec.new (program : Text) (system_path : List Text)
    (allowed_options : List (Text × Opt)) (arg_patterns : List ArgMatcher)
    (forbidden : Option Text) : ProgramSpec :=
  { program, system_path, allowed_options, arg_patterns, forbidden
    required_options := (allowed_options.filter fun option => option.2.required).map Prod.fst }

inductive Forbidden where
  | Program (program : Text) (exec_call : ExecCall)
  | Arg (arg : Text) (exec_call : ExecCall)
  | Exec (exec : ValidExec)
  deriving DecidableEq, Repr

inductive MatchedExec where
  | Match (exec : ValidExec)
  | Forbidden (cause : Forbidden) (reason : Text)
  deriving DecidableEq, Repr

/-! ## The options of a call -/

/-- What the loop over the arguments has found. -/
structure Parsed where
  expecting_option_value : Option (Text × ArgType)
  args : List PositionalArg
  matched_flags : List MatchedFlag
  matched_opts : List MatchedOpt
  deriving DecidableEq, Repr

def starts_with_dash (arg : Text) : Bool := Text.starts_with arg ['-']

def ProgramSpec.read_arg (spec : ProgramSpec) (parsed : Parsed) (index : Nat) (arg : Text) :
    Result Parsed :=
  match parsed.expecting_option_value with
  | some (name, arg_type) =>
    if starts_with_dash arg then
      err (.OptionFollowedByOptionInsteadOfValue spec.program name arg)
    else do
      let opt ← MatchedOpt.new name arg arg_type
      return { parsed with
        matched_opts := parsed.matched_opts ++ [opt]
        expecting_option_value := none }
  | none =>
    if arg = "--".toList then err (.DoubleDashNotSupportedYet spec.program)
    else if starts_with_dash arg then
      match spec.allowed_options.lookup arg with
      | some opt =>
        match opt.opt_meta with
        | .Flag => .ok { parsed with matched_flags := parsed.matched_flags ++ [⟨arg⟩] }
        | .Value arg_type => .ok { parsed with expecting_option_value := some (arg, arg_type) }
      | none => err (.UnknownOption spec.program arg)
    else .ok { parsed with args := parsed.args ++ [⟨index, arg⟩] }

def ProgramSpec.read_args (spec : ProgramSpec) (parsed : Parsed) (index : Nat) :
    List Text → Result Parsed
  | [] => .ok parsed
  | arg :: args => do
    let parsed ← spec.read_arg parsed index arg
    ProgramSpec.read_args spec parsed (index + 1) args

def ProgramSpec.check (spec : ProgramSpec) (exec_call : ExecCall) : Result MatchedExec := do
  let parsed ← spec.read_args ⟨none, [], [], []⟩ 0 exec_call.args
  match parsed.expecting_option_value with
  | some (name, _) => err (.OptionMissingValue spec.program name)
  | none => do
    let matched_args ←
      resolve_observed_args_with_patterns spec.program parsed.args spec.arg_patterns
    let matched_opt_names := parsed.matched_opts.map MatchedOpt.name
    let missing := spec.required_options.filter fun option => option ∉ matched_opt_names
    if missing ≠ [] then
      err (.MissingRequiredOptions spec.program (missing.mergeSort (· ≤ ·)))
    else
      let exec : ValidExec :=
        ⟨spec.program, parsed.matched_flags, parsed.matched_opts, matched_args, spec.system_path⟩
      match spec.forbidden with
      | some reason => return .Forbidden (.Exec exec) reason
      | none => return .Match exec

/-! ## The files of an accepted call -/

/-- The types and values that are checked, in this order. -/
def ValidExec.typed_values (exec : ValidExec) : List (ArgType × Text) :=
  (exec.args.map fun arg => (arg.type, arg.value)) ++
    exec.opts.map fun opt => (opt.type, opt.value)

def in_folders (file : Path) (folders : List Path) : Bool :=
  folders.any fun folder => Path.starts_with file folder

section checker

-- `path_absolutize` is of another package: the two forms of its function give a path or the kind
-- of an error. The last parameter is what the file system says.
variable (absolutize_from : Path → Path → Except Text Path) (absolutize : Path → Except Text Path)
  (is_executable_file : Text → Bool)

def ensure_absolute_path (path : Text) (cwd : Option Path) : Result Path :=
  let file := Path.of_text path
  let canonical : Except Text Path → Result Path
    | .ok result => .ok result
    | .error kind => err (.CannotCanonicalizePath path kind)
  if !Path.is_absolute file then
    match cwd with
    | some cwd => canonical (absolutize_from file cwd)
    | none => err (.CannotCheckRelativePath file)
  else canonical (absolutize file)

def check_file (cwd : Option Path) (readable_folders writeable_folders : List Path)
    (arg_type : ArgType) (value : Text) : Result Unit :=
  match arg_type with
  | .ReadableFile => do
    let readable_file ← ensure_absolute_path absolutize_from absolutize value cwd
    if !in_folders readable_file readable_folders then
      err (.ReadablePathNotInReadableFolders readable_file readable_folders)
    else .ok ()
  | .WriteableFile => do
    let writeable_file ← ensure_absolute_path absolutize_from absolutize value cwd
    if !in_folders writeable_file writeable_folders then
      err (.WriteablePathNotInWriteableFolders writeable_file writeable_folders)
    else .ok ()
  | .OpaqueNonFile | .Unknown | .PositiveInteger | .SedCommand | .Literal _ => .ok ()

def check_files (cwd : Option Path) (readable_folders writeable_folders : List Path) :
    List (ArgType × Text) → Result Unit
  | [] => .ok ()
  | (arg_type, value) :: rest => do
    check_file absolutize_from absolutize cwd readable_folders writeable_folders arg_type value
    check_files cwd readable_folders writeable_folders rest

/-- `ExecvChecker::check`: the program that is to be run. -/
def ExecvChecker.check (valid_exec : ValidExec) (cwd : Option Path)
    (readable_folders writeable_folders : List Path) : Result Text := do
  check_files absolutize_from absolutize cwd readable_folders writeable_folders
    valid_exec.typed_values
  return (valid_exec.system_path.find? is_executable_file).getD valid_exec.program

end checker

end Ecode.execpolicy
