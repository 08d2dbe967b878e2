-- The policy of exec calls: what a pattern matches, which type an argument has, and how the
-- positional arguments of a call are divided among the patterns of a program
-- (execpolicy/src/arg_matcher.rs, arg_type.rs, sed_command.rs, valid_exec.rs, arg_resolver.rs).
import Ecode.Paths
import Ecode.SnapshotEpoch

open Ecode.review_coord (parse_u64)

namespace Ecode.execpolicy

inductive ArgType where
  | Literal (value : Text)
  | OpaqueNonFile
  | ReadableFile
  | WriteableFile
  | PositiveInteger
  | SedCommand
  | Unknown
  deriving DecidableEq, Repr

inductive ArgMatcher where
  | Literal (value : Text)
  | OpaqueNonFile
  | ReadableFile
  | WriteableFile
  | ReadableFiles
  | ReadableFilesOrCwd
  | PositiveInteger
  | SedCommand
  | UnverifiedVarargs
  deriving DecidableEq, Repr

inductive ArgMatcherCardinality where
  | One
  | AtLeastOne
  | ZeroOrMore
  deriving DecidableEq, Repr

def ArgMatcherCardinality.is_exact : ArgMatcherCardinality → Option Nat
  | .One => some 1
  | .AtLeastOne | .ZeroOrMore => none

def ArgMatcher.cardinality : ArgMatcher → ArgMatcherCardinality
  | .Literal _ | .OpaqueNonFile | .ReadableFile | .WriteableFile | .PositiveInteger
  | .SedCommand => .One
  | .ReadableFiles => .AtLeastOne
  | .ReadableFilesOrCwd | .UnverifiedVarargs => .ZeroOrMore

def ArgMatcher.arg_type : ArgMatcher → ArgType
  | .Literal value => .Literal value
  | .OpaqueNonFile => .OpaqueNonFile
  | .ReadableFile => .ReadableFile
  | .WriteableFile => .WriteableFile
  | .ReadableFiles => .ReadableFile
  | .ReadableFilesOrCwd => .ReadableFile
  | .PositiveInteger => .PositiveInteger
  | .SedCommand => .SedCommand
  | .UnverifiedVarargs => .Unknown

structure PositionalArg where
  index : Nat
  value : Text
  deriving DecidableEq, Repr

structure MatchedArg where
  index : Nat
  type : ArgType
  value : Text
  deriving DecidableEq, Repr

inductive Error where
  | OptionMissingValue (program option : Text)
  | OptionFollowedByOptionInsteadOfValue (program option value : Text)
  | UnknownOption (program option : Text)
  | UnexpectedArguments (program : Text) (args : List PositionalArg)
  | DoubleDashNotSupportedYet (program : Text)
  | MultipleVarargPatterns (program : Text) (first second : ArgMatcher)
  | RangeStartExceedsEnd (start stop : Nat)
  | RangeEndOutOfBounds (stop len : Nat)
  | PrefixOverlapsSuffix
  | NotEnoughArgs (program : Text) (args : List PositionalArg) (arg_patterns : List ArgMatcher)
  | InternalInvariantViolation (message : Text)
  | VarargMatcherDidNotMatchAnything (program : Text) (matcher : ArgMatcher)
  | EmptyFileName
  | LiteralValueDidNotMatch (expected actual : Text)
  | InvalidPositiveInteger (value : Text)
  | MissingRequiredOptions (program : Text) (options : List Text)
  | SedCommandNotProvablySafe (command : Text)
  | ReadablePathNotInReadableFolders (file : Path) (folders : List Path)
  | WriteablePathNotInWriteableFolders (file : Path) (folders : List Path)
  | CannotCheckRelativePath (file : Path)
  | CannotCanonicalizePath (file error : Text)
  deriving DecidableEq, Repr

/-- A panic, or an error that is returned. -/
inductive Fault where
  | panic
  | error (e : Error)
  deriving DecidableEq, Repr

abbrev Result (α : Type) := Except Fault α

def err {α : Type} (e : Error) : Result α := .error (.error e)

/-! ## Types of arguments -/

def parse_sed_command (sed_command : Text) : Result Unit :=
  let safe := do
    let stripped ← Text.strip_suffix sed_command ['p']
    let first := stripped.takeWhile (· ≠ ',')
    let (_ : Nat) ← parse_u64 first
    match stripped.dropWhile (· ≠ ',') with
    | [] => none
    | _ :: rest => parse_u64 rest
  match safe with
  | some _ => .ok ()
  | none => err (.SedCommandNotProvablySafe sed_command)

def ArgType.validate (type : ArgType) (value : Text) : Result Unit :=
  match type with
  | .Literal literal_value =>
    if value ≠ literal_value then err (.LiteralValueDidNotMatch literal_value value) else .ok ()
  | .ReadableFile => if value = [] then err .EmptyFileName else .ok ()
  | .WriteableFile => if value = [] then err .EmptyFileName else .ok ()
  | .OpaqueNonFile | .Unknown => .ok ()
  | .PositiveInteger =>
    match parse_u64 value with
    | some 0 => err (.InvalidPositiveInteger value)
    | some _ => .ok ()
    | none => err (.InvalidPositiveInteger value)
  | .SedCommand => parse_sed_command value

def MatchedArg.new (index : Nat) (type : ArgType) (value : Text) : Result MatchedArg := do
  type.validate value
  return ⟨index, type, value⟩

/-! ## Positional arguments -/

/-- `&xs[start..stop]`. -/
def slice {α : Type} (xs : List α) (start stop : Nat) : Result (List α) :=
  if start ≤ stop ∧ stop ≤ xs.length then .ok ((xs.drop start).take (stop - start))
  else .error .panic

def get_range_checked {α : Type} (xs : List α) (start stop : Nat) : Result (List α) :=
  if stop < start then err (.RangeStartExceedsEnd start stop)
  else if xs.length < stop then err (.RangeEndOutOfBounds stop xs.length)
  else slice xs start stop

structure ParitionedArgs where
  num_prefix_args : Nat
  num_suffix_args : Nat
  prefix_patterns : List ArgMatcher
  suffix_patterns : List ArgMatcher
  vararg_pattern : Option ArgMatcher
  deriving DecidableEq, Repr

/-- The loop of `partition_args`. -/
def partition_args_from (program : Text) ( in_prefix : Bool) (partitioned : ParitionedArgs) :
    List ArgMatcher → Result ParitionedArgs
  | [] => .ok partitioned
  | pattern :: patterns =>
    match pattern.cardinality.is_exact with
    | some n =>
      if in_prefix then
        partition_args_from program in_prefix
          { partitioned with
            prefix_patterns := partitioned.prefix_patterns ++ [pattern]
            num_prefix_args := partitioned.num_prefix_args + n } patterns
      else
        partition_args_from program in_prefix
          { partitioned with
            suffix_patterns := partitioned.suffix_patterns ++ [pattern]
            num_suffix_args := partitioned.num_suffix_args + n } patterns
    | none =>
      match partitioned.vararg_pattern with
      | none =>
        partition_args_from program false { partitioned with vararg_pattern := some pattern }
          patterns
      | some existing_pattern => err (.MultipleVarargPatterns program existing_pattern pattern)

def partition_args (program : Text) (arg_patterns : List ArgMatcher) : Result ParitionedArgs :=
  partition_args_from program true ⟨0, 0, [], [], none⟩ arg_patterns

/-- All arguments of one pattern. -/
def match_pattern (pattern : ArgMatcher) (args : List PositionalArg) : Result (List MatchedArg) :=
  args.mapM fun arg => MatchedArg.new arg.index pattern.arg_type arg.value

/-- The loop over the patterns in front of the vararg pattern, and over those behind it: what is
matched, and the index behind it. -/
def match_exact (args : List PositionalArg) (arg_index : Nat) :
    List ArgMatcher → Result (List MatchedArg × Nat)
  | [] => .ok ([], arg_index)
  | pattern :: patterns =>
    match pattern.cardinality.is_exact with
    | none => err (.InternalInvariantViolation "expected exact cardinality".toList)
    | some n => do
      let observed ← slice args arg_index (arg_index + n)
      let matched ← match_pattern pattern observed
      let (rest, index) ← match_exact args (arg_index + n) patterns
      return (matched ++ rest, index)

def match_vararg (program : Text) (args : List PositionalArg) (start stop : Nat) :
    Option ArgMatcher → Result (List MatchedArg)
  | none => .ok []
  | some pattern => do
    let vararg ← get_range_checked args start stop
    match pattern.cardinality with
    | .One =>
      err (.InternalInvariantViolation
        "vararg pattern should not have cardinality of one".toList)
    | .AtLeastOne =>
      if vararg = [] then err (.VarargMatcherDidNotMatchAnything program pattern)
      else match_pattern pattern vararg
    | .ZeroOrMore => match_pattern pattern vararg

def resolve_observed_args_with_patterns (program : Text) (args : List PositionalArg)
    (arg_patterns : List ArgMatcher) : Result (List MatchedArg) := do
  let parts ← partition_args program arg_patterns
  let observed ← get_range_checked args 0 parts.num_prefix_args
  let ( matched_prefix, prefix_arg_index) ← match_exact observed 0 parts.prefix_patterns
  if args.length < parts.num_suffix_args then err (.NotEnoughArgs program args arg_patterns)
  else do
    let initial_suffix_args_index := args.length - parts.num_suffix_args
    if initial_suffix_args_index < prefix_arg_index then err .PrefixOverlapsSuffix
    else do
      let matched_vararg ← match_vararg program args prefix_arg_index initial_suffix_args_index
        parts.vararg_pattern
      let suffix ← get_range_checked args initial_suffix_args_index args.length
      let (matched_suffix, _) ← match_exact suffix 0 parts.suffix_patterns
      let matched_args := matched_prefix ++ matched_vararg ++ matched_suffix
      if matched_args.length < args.length then do
        let extra_args ← get_range_checked args matched_args.length args.length
        err (.UnexpectedArguments program extra_args)
      else return matched_args

end Ecode.execpolicy
