-- Which files an accepted call can reach: every typed value lies in a folder, and a pattern that
-- reads the working directory when it matches nothing is not checked for that
-- (execpolicy/src/program.rs, execv_checker.rs).
import Ecode.ExecPolicyMatching
import Ecode.ExecPolicyProgram

namespace Ecode.execpolicy

/-! ## The loop over the arguments -/

/-- An option that takes the next argument as its value. -/
def ProgramSpec.takes_value (spec : ProgramSpec) (arg : Text) : Bool :=
  starts_with_dash arg &&
    match spec.allowed_options.lookup arg with
    | some ⟨_, .Value _, _⟩ => true
    | _ => false

def values (args : List Text) : Nat := (args.filter fun arg => !starts_with_dash arg).length

def ProgramSpec.value_options (spec : ProgramSpec) (args : List Text) : Nat :=
  (args.filter spec.takes_value).length

/-- An option whose value is still to come. -/
def Parsed.open_options (parsed : Parsed) : Nat :=
  if parsed.expecting_option_value.isSome then 1 else 0

def Parsed.Lists (parsed : Parsed) (value : Text) : Prop :=
  (∃ arg ∈ parsed.args, arg.value = value) ∨ ∃ opt ∈ parsed.matched_opts, opt.value = value

/-- What the loop has made of more arguments: every value is an argument or the value of an option,
and the options with a value are as many as their values. -/
structure Reads (spec : ProgramSpec) (args : List Text) (before after : Parsed) : Prop where
  counted : after.args.length + after.matched_opts.length =
    before.args.length + before.matched_opts.length + values args
  options : after.matched_opts.length + after.open_options =
    before.matched_opts.length + before.open_options + spec.value_options args
  kept : ∀ value, before.Lists value → after.Lists value
  listed : ∀ value ∈ args, starts_with_dash value = false → after.Lists value

section loop

variable {spec : ProgramSpec} {before after : Parsed}

theorem takes_value_of_not_dash {arg : Text} (h : starts_with_dash arg = false) :
    spec.takes_value arg = false := by
  simp [ProgramSpec.takes_value, h]

theorem takes_value_of_dash {arg : Text} {opt : Opt} (h : starts_with_dash arg = true)
    (hopt : spec.allowed_options.lookup arg = some opt) :
    spec.takes_value arg = true ↔ ∃ type, opt.opt_meta = .Value type := by
  obtain ⟨name, opt_meta, required⟩ := opt
  cases opt_meta with
  | Flag => simp [ProgramSpec.takes_value, h, hopt]
  | Value type => simp [ProgramSpec.takes_value, h, hopt]

theorem matched_opt_new_eq_ok {name value : Text} {type : ArgType} {opt : MatchedOpt}
    (h : MatchedOpt.new name value type = .ok opt) : opt = ⟨name, value, type⟩ := by
  obtain ⟨-, -, hopt⟩ := bind_eq_ok.mp h
  exact (Except.ok.inj hopt).symm

/-- The loop's step for the value of an option. -/
theorem read_arg_value {index : Nat} {arg name : Text} {type : ArgType}
    (hexpecting : before.expecting_option_value = some (name, type))
    (h : spec.read_arg before index arg = .ok after) : starts_with_dash arg = false ∧
      after = { before with
        matched_opts := before.matched_opts ++ [⟨name, arg, type⟩]
        expecting_option_value := none } := by
  unfold ProgramSpec.read_arg at h
  rw [hexpecting] at h
  dsimp only at h
  split_ifs at h with hdash
  · cases h
  · obtain ⟨opt, hopt, hafter⟩ := bind_eq_ok.mp h
    obtain rfl := matched_opt_new_eq_ok hopt
    exact ⟨by simpa using hdash, (Except.ok.inj hafter).symm⟩

/-- The loop's step where no value is expected: a flag, an option with a value to come, or a
positional argument. -/
theorem read_arg_cases {index : Nat} {arg : Text}
    (hexpecting : before.expecting_option_value = none)
    (h : spec.read_arg before index arg = .ok after) :
    (starts_with_dash arg = true ∧ spec.takes_value arg = false ∧
      after = { before with matched_flags := before.matched_flags ++ [⟨arg⟩] }) ∨
    (starts_with_dash arg = true ∧ spec.takes_value arg = true ∧
      ∃ type, after = { before with expecting_option_value := some (arg, type) }) ∨
    (starts_with_dash arg = false ∧
      after = { before with args := before.args ++ [⟨index, arg⟩] }) := by
  obtain ⟨expecting, args, matched_flags, matched_opts⟩ := before
  obtain rfl : expecting = none := hexpecting
  unfold ProgramSpec.read_arg at h
  dsimp only at h
  split_ifs at h with hdouble hdash
  · cases h
  · rcases hopt : spec.allowed_options.lookup arg with _ | opt
    · rw [hopt] at h
      cases h
    · rw [hopt] at h
      dsimp only at h
      have htakes := takes_value_of_dash hdash hopt
      rcases hmeta : opt.opt_meta with _ | type
      · rw [hmeta] at h htakes
        refine .inl ⟨hdash, ?_, (Except.ok.inj h).symm⟩
        simpa using htakes
      · rw [hmeta] at h
        exact .inr (.inl ⟨hdash, htakes.mpr ⟨type, hmeta⟩, type, (Except.ok.inj h).symm⟩)
  · exact .inr (.inr ⟨by simpa using hdash, (Except.ok.inj h).symm⟩)

theorem read_arg_reads {index : Nat} {arg : Text}
    (h : spec.read_arg before index arg = .ok after) : Reads spec [arg] before after := by
  rcases hexpecting : before.expecting_option_value with _ | ⟨name, type⟩
  · rcases read_arg_cases hexpecting h with ⟨hdash, htakes, rfl⟩ | ⟨hdash, htakes, type, rfl⟩ |
      ⟨hdash, rfl⟩
    · refine ⟨by simp [values, hdash], ?_, fun _ hvalue => hvalue, by simp [hdash]⟩
      simp [ProgramSpec.value_options, htakes, Parsed.open_options]
    · refine ⟨by simp [values, hdash], ?_, fun _ hvalue => hvalue, by simp [hdash]⟩
      simp [ProgramSpec.value_options, htakes, Parsed.open_options, hexpecting]
    · have htakes : spec.takes_value _ = false := takes_value_of_not_dash hdash
      refine ⟨?_, by simp [ProgramSpec.value_options, htakes, Parsed.open_options], ?_, ?_⟩
      · simp [values, hdash]
        omega
      · rintro value (⟨first, hfirst, rfl⟩ | hopt)
        · exact .inl ⟨first, by simp [hfirst], rfl⟩
        · exact .inr hopt
      · intro value hvalue _
        obtain rfl := List.mem_singleton.mp hvalue
        exact .inl ⟨⟨index, value⟩, by simp, rfl⟩
  · obtain ⟨hdash, rfl⟩ := read_arg_value hexpecting h
    have htakes : spec.takes_value _ = false := takes_value_of_not_dash hdash
    refine ⟨by simp [values, hdash]; omega, ?_, ?_, ?_⟩
    · simp [ProgramSpec.value_options, htakes, Parsed.open_options, hexpecting]
    · rintro value (harg | ⟨opt, hopt, rfl⟩)
      · exact .inl harg
      · exact .inr ⟨opt, by simp [hopt], rfl⟩
    · intro value hvalue _
      obtain rfl := List.mem_singleton.mp hvalue
      exact .inr ⟨⟨name, value, type⟩, by simp, rfl⟩

theorem read_args_reads {index : Nat} {args : List Text}
    (h : spec.read_args before index args = .ok after) : Reads spec args before after := by
  induction args generalizing before index with
  | nil =>
    obtain rfl := Except.ok.inj h
    exact ⟨by simp [values], by simp [ProgramSpec.value_options], fun _ hlist => hlist, by simp⟩
  | cons arg args ih =>
    obtain ⟨middle, hmiddle, hrest⟩ := bind_eq_ok.mp h
    have hfirst := read_arg_reads hmiddle
    have hlater := ih hrest
    refine ⟨?_, ?_, fun value hvalue => hlater.kept value (hfirst.kept value hvalue), ?_⟩
    · have hvalues : values (arg :: args) = values [arg] + values args := by
        unfold values
        rw [← List.length_append, ← List.filter_append]
        rfl
      have hcounted₁ := hfirst.counted
      have hcounted₂ := hlater.counted
      omega
    · have hoptions : spec.value_options (arg :: args) =
          spec.value_options [arg] + spec.value_options args := by
        unfold ProgramSpec.value_options
        rw [← List.length_append, ← List.filter_append]
        rfl
      have hoptions₁ := hfirst.options
      have hoptions₂ := hlater.options
      omega
    · intro value hvalue hdash
      rcases List.mem_cons.mp hvalue with rfl | hvalue
      · exact hlater.kept value (hfirst.listed value (by simp) hdash)
      · exact hlater.listed value hvalue hdash

end loop

/-! ## Calls that are accepted -/

def ProgramSpec.positional_args (spec : ProgramSpec) (args : List Text) : Nat :=
  values args - spec.value_options args

section accepted

variable {spec : ProgramSpec} {call : ExecCall} {exec : ValidExec}

/-- An accepted call was read to its end, and its positional arguments were divided among the
patterns. -/
theorem check_match (h : spec.check call = .ok (.Match exec)) : ∃ parsed,
    spec.read_args ⟨none, [], [], []⟩ 0 call.args = .ok parsed ∧
      parsed.expecting_option_value = none ∧ exec.opts = parsed.matched_opts ∧
      (spec.arg_patterns.filter ArgMatcher.is_vararg).length ≤ 1 ∧
      Divided spec.arg_patterns parsed.args exec.args := by
  obtain ⟨parsed, hparsed, h⟩ := bind_eq_ok.mp h
  refine ⟨parsed, hparsed, ?_⟩
  split at h
  · cases h
  · next hexpecting =>
    obtain ⟨matched_args, hresolve, h⟩ := bind_eq_ok.mp h
    dsimp only at h
    split_ifs at h with hmissing
    · cases h
    · split at h
      · cases h
      · obtain rfl := MatchedExec.Match.inj (Except.ok.inj h)
        have hdivided := ((resolve_observed_args_iff _ _ _).2 _).1.mp hresolve
        exact ⟨hexpecting, rfl, hdivided⟩

/-- All arguments that are no options are positional arguments or values of options. -/
theorem positional_args_length (h : spec.check call = .ok (.Match exec)) :
    exec.args.length = spec.positional_args call.args := by
  obtain ⟨parsed, hparsed, hexpecting, -, -, hdivided⟩ := check_match h
  have hreads := read_args_reads hparsed
  have hcounted := hreads.counted
  have hoptions := hreads.options
  have hopen : parsed.open_options = 0 := by simp [Parsed.open_options, hexpecting]
  rw [hopen] at hoptions
  rw [divided_ms_length hdivided]
  unfold ProgramSpec.positional_args
  simp [Parsed.open_options] at hcounted hoptions
  omega

theorem value_is_typed (h : spec.check call = .ok (.Match exec)) {value : Text}
    (hvalue : value ∈ call.args) (hdash : starts_with_dash value = false) :
    ∃ type, (type, value) ∈ exec.typed_values := by
  obtain ⟨parsed, hparsed, -, hopts, -, hdivided⟩ := check_match h
  unfold ValidExec.typed_values
  rcases (read_args_reads hparsed).listed value hvalue hdash with
    ⟨arg, harg, rfl⟩ | ⟨opt, hopt, rfl⟩
  · have hlisted : (arg.index, arg.value) ∈ exec.args.map fun m => (m.index, m.value) := by
      rw [divided_args hdivided]
      exact List.mem_map.mpr ⟨arg, harg, rfl⟩
    obtain ⟨m, hm, hpair⟩ := List.mem_map.mp hlisted
    obtain ⟨-, hm_value⟩ := Prod.mk.inj hpair
    exact ⟨m.type, List.mem_append_left _ (List.mem_map.mpr ⟨m, hm, by rw [hm_value]⟩)⟩
  · exact ⟨opt.type, List.mem_append_right _ (List.mem_map.mpr ⟨opt, by rwa [hopts], rfl⟩)⟩

end accepted

/-! ## A pattern that matches nothing -/

/-- The listed arguments are those of the patterns around one pattern. -/
def MatchedNothing (before after : List ArgMatcher) (exec : ValidExec) : Prop :=
  exec.args.map MatchedArg.type = (before ++ after).map ArgMatcher.arg_type

section nothing

variable {spec : ProgramSpec} {call : ExecCall} {exec : ValidExec} {patterns : List ArgMatcher}
  {args : List PositionalArg} {ms : List MatchedArg}

theorem divided_types (h : Exact patterns) (hdivided : Divided patterns args ms) :
    ms.map MatchedArg.type = patterns.map ArgMatcher.arg_type := by
  induction patterns generalizing args ms with
  | nil => simp [(divided_nil_iff.mp hdivided).2]
  | cons p ps ih =>
    obtain ⟨hp, hps⟩ := List.forall_mem_cons.mp h
    obtain ⟨arg, rest, ms', -, rfl, -, hrest⟩ := (divided_exact_iff hp).mp hdivided
    simp [ih hps hrest, matched]

theorem exact_around {before after : List ArgMatcher} {v : ArgMatcher} (hv : v.is_vararg = true)
    (h : ((before ++ v :: after).filter ArgMatcher.is_vararg).length ≤ 1) :
    Exact before ∧ Exact after := by
  rw [List.filter_append, List.filter_cons_of_pos hv, List.length_append, List.length_cons] at h
  constructor
  · apply exact_iff_filter.mpr
    apply List.eq_nil_of_length_eq_zero
    omega
  · apply exact_iff_filter.mpr
    apply List.eq_nil_of_length_eq_zero
    omega

/-- The vararg pattern matches nothing when there are fewer arguments than patterns. -/
theorem matched_nothing_iff (h : spec.check call = .ok (.Match exec))
    {before after : List ArgMatcher} {v : ArgMatcher} (hv : v.is_vararg = true)
    (hpatterns : spec.arg_patterns = before ++ v :: after) :
    MatchedNothing before after exec ↔
      spec.positional_args call.args < spec.arg_patterns.length := by
  rw [← positional_args_length h]
  obtain ⟨parsed, -, -, -, hone, hdivided⟩ := check_match h
  rw [hpatterns] at hone hdivided ⊢
  obtain ⟨hbefore, hafter⟩ := exact_around hv hone
  obtain ⟨args₁, rest, m₁, rest_ms, -, hms, hdivided₁, hrest⟩ := divided_append_iff.mp hdivided
  obtain ⟨first, args₃, m₂, m₃, -, rfl, hdivided₂, hdivided₃⟩ := divided_cons_iff.mp hrest
  have htypes₁ := divided_types hbefore hdivided₁
  have htypes₃ := divided_types hafter hdivided₃
  have hlen₁ := congrArg List.length htypes₁
  have hlen₃ := congrArg List.length htypes₃
  simp only [List.length_map] at hlen₁ hlen₃
  unfold MatchedNothing
  constructor
  · intro htypes
    have hlen := congrArg List.length htypes
    simp only [List.length_map, List.length_append, List.length_cons] at hlen ⊢
    omega
  · intro hless
    have hnil : m₂ = [] := by
      apply List.eq_nil_of_length_eq_zero
      rw [hms] at hless
      simp only [List.length_append, List.length_cons] at hless
      omega
    rw [hms, hnil, List.nil_append, List.map_append, List.map_append, htypes₁, htypes₃]

end nothing

/-! ## Folders -/

/-- The path without `.`, and with `..` resolved by the text alone. -/
def normalized (path : Path) : Path :=
  path.foldl (fun out component =>
    match component with
    | .CurDir => out
    | .ParentDir => Path.pop out
    | component => Path.push out component) []

/-- The file that a value names from `cwd`. -/
def resolved (cwd : Path) (value : Text) : Path :=
  normalized (Path.join cwd (Path.of_text value))

/-- What `path_absolutize` says of itself: a relative path is put behind the directory, and the dots
of a path are read away. -/
structure Absolutizes (absolutize_from : Path → Path → Except Text Path)
    (absolutize : Path → Except Text Path) : Prop where
  from_cwd : ∀ file cwd result, Path.is_absolute cwd = true →
    absolutize_from file cwd = .ok result → result = normalized (Path.join cwd file)
  absolute : ∀ file result, Path.is_absolute file = true →
    absolutize file = .ok result → result = normalized file

/-- What an accepted call reads and writes is in the folders: what it names, and the working
directory where a pattern stands for it. -/
structure Bounded (spec : ProgramSpec) (call : ExecCall) (exec : ValidExec) (cwd : Path)
    (readable_folders writeable_folders : List Path) : Prop where
  typed : ∀ value ∈ call.args, starts_with_dash value = false →
    ∃ type, (type, value) ∈ exec.typed_values
  readable : ∀ value, (.ReadableFile, value) ∈ exec.typed_values →
    in_folders (resolved cwd value) readable_folders = true
  writeable : ∀ value, (.WriteableFile, value) ∈ exec.typed_values →
    in_folders (resolved cwd value) writeable_folders = true
  cwd : ∀ before after, spec.arg_patterns = before ++ .ReadableFilesOrCwd :: after →
    MatchedNothing before after exec → in_folders (normalized cwd) readable_folders = true

/-- Where a pattern can stand for the working directory, there are arguments for all patterns or
the directory is in a readable folder. -/
def CwdCovered (spec : ProgramSpec) (call : ExecCall) (cwd : Path) (readable_folders : List Path) :
    Prop :=
  .ReadableFilesOrCwd ∈ spec.arg_patterns →
    spec.arg_patterns.length ≤ spec.positional_args call.args ∨
      in_folders (normalized cwd) readable_folders = true

section folders

variable {absolutize_from : Path → Path → Except Text Path} {absolutize : Path → Except Text Path}
  {is_executable_file : Text → Bool} {cwd : Path} {readable_folders writeable_folders : List Path}

theorem join_absolute {file : Path} (h : Path.is_absolute file = true) :
    Path.join cwd file = file := by
  cases file with
  | nil => cases h
  | cons first rest =>
    obtain rfl : first = .RootDir := by simpa [Path.is_absolute] using h
    cases cwd with
    | nil => rfl
    | cons _ _ => rfl

theorem ensure_absolute_path_eq (hlaws : Absolutizes absolutize_from absolutize)
    (hcwd : Path.is_absolute cwd = true) {value : Text} {file : Path}
    (h : ensure_absolute_path absolutize_from absolutize value (some cwd) = .ok file) :
    file = resolved cwd value := by
  unfold ensure_absolute_path at h
  unfold resolved
  dsimp only at h
  rcases hfile : Path.is_absolute (Path.of_text value) with _ | _
  · rw [hfile, if_pos (by simp)] at h
    rcases hresult : absolutize_from (Path.of_text value) cwd with kind | result
    · rw [hresult] at h
      cases h
    · rw [hresult] at h
      obtain rfl := Except.ok.inj h
      exact hlaws.from_cwd _ _ _ hcwd hresult
  · rw [hfile, if_neg (by simp)] at h
    rw [join_absolute hfile]
    rcases hresult : absolutize (Path.of_text value) with kind | result
    · rw [hresult] at h
      cases h
    · rw [hresult] at h
      obtain rfl := Except.ok.inj h
      exact hlaws.absolute _ _ hfile hresult

theorem check_file_readable (hlaws : Absolutizes absolutize_from absolutize)
    (hcwd : Path.is_absolute cwd = true) {value : Text}
    (h : check_file absolutize_from absolutize (some cwd) readable_folders writeable_folders
      .ReadableFile value = .ok ()) :
    in_folders (resolved cwd value) readable_folders = true := by
  obtain ⟨file, hfile, h⟩ := bind_eq_ok.mp h
  rw [← ensure_absolute_path_eq hlaws hcwd hfile]
  split_ifs at h with hin
  · cases h
  · simpa using hin

theorem check_file_writeable (hlaws : Absolutizes absolutize_from absolutize)
    (hcwd : Path.is_absolute cwd = true) {value : Text}
    (h : check_file absolutize_from absolutize (some cwd) readable_folders writeable_folders
      .WriteableFile value = .ok ()) :
    in_folders (resolved cwd value) writeable_folders = true := by
  obtain ⟨file, hfile, h⟩ := bind_eq_ok.mp h
  rw [← ensure_absolute_path_eq hlaws hcwd hfile]
  split_ifs at h with hin
  · cases h
  · simpa using hin

theorem check_files_ok {typed_values : List (ArgType × Text)}
    (h : check_files absolutize_from absolutize (some cwd) readable_folders writeable_folders
      typed_values = .ok ()) {typed : ArgType × Text} (hmem : typed ∈ typed_values) :
    check_file absolutize_from absolutize (some cwd) readable_folders writeable_folders
      typed.1 typed.2 = .ok () := by
  induction typed_values with
  | nil => cases hmem
  | cons first rest ih =>
    obtain ⟨⟨⟩, hfirst, hrest⟩ := bind_eq_ok.mp h
    rcases List.mem_cons.mp hmem with rfl | hmem
    · exact hfirst
    · exact ih hrest hmem

/-- An accepted call stays within the folders exactly when the working directory does not stand for
missing arguments, or lies in a readable folder. The files that it names always do. -/
theorem accepted_call_bounded_iff (hlaws : Absolutizes absolutize_from absolutize)
    (hcwd : Path.is_absolute cwd = true) (spec : ProgramSpec) (call : ExecCall)
    (exec : ValidExec) (program : Text) (hmatch : spec.check call = .ok (.Match exec))
    (hchecked : ExecvChecker.check absolutize_from absolutize is_executable_file exec (some cwd)
      readable_folders writeable_folders = .ok program) :
    Bounded spec call exec cwd readable_folders writeable_folders ↔
      CwdCovered spec call cwd readable_folders := by
  obtain ⟨⟨⟩, hfiles, -⟩ := bind_eq_ok.mp hchecked
  constructor
  · intro hbounded hpattern
    obtain ⟨before, after, hpatterns⟩ := List.append_of_mem hpattern
    rcases Nat.lt_or_ge (spec.positional_args call.args) spec.arg_patterns.length with hless | hall
    · right
      apply hbounded.cwd before after hpatterns
      exact (matched_nothing_iff hmatch rfl hpatterns).mpr hless
    · exact .inl hall
  · intro hcovered
    refine ⟨fun _ => value_is_typed hmatch, ?_, ?_, ?_⟩
    · intro value hvalue
      exact check_file_readable hlaws hcwd (check_files_ok hfiles hvalue)
    · intro value hvalue
      exact check_file_writeable hlaws hcwd (check_files_ok hfiles hvalue)
    · intro before after hpatterns hnothing
      have hless := (matched_nothing_iff hmatch rfl hpatterns).mp hnothing
      have hpattern : .ReadableFilesOrCwd ∈ spec.arg_patterns := by simp [hpatterns]
      rcases hcovered hpattern with hall | hin
      · omega
      · exact hin

end folders

/-! ## The program `ls` -/

/-- `path_absolutize` on paths that can be read. -/
def absolutize_lexically (file cwd : Path) : Except Text Path :=
  .ok (normalized (Path.join cwd file))

theorem absolutizes_lexically :
    Absolutizes absolutize_lexically fun file => .ok (normalized file) := by
  constructor
  · intro file cwd result _ h
    exact (Except.ok.inj h).symm
  · intro file result _ h
    exact (Except.ok.inj h).symm

/-- `ls`, as the default policy defines it. -/
def ls : ProgramSpec :=
  ProgramSpec.new "ls".toList ["/bin/ls".toList, "/usr/bin/ls".toList]
    (["-1", "-a", "-l"].map fun name => (name.toList, ⟨name.toList, .Flag, false⟩))
    [.ReadableFilesOrCwd] none

/-- `ls -l ../docs` from `/work/src`, with the readable folder `/work`. -/
theorem ls_docs_bounded :
    Bounded ls ⟨"ls".toList, ["-l".toList, "../docs".toList]⟩
        ⟨"ls".toList, [⟨"-l".toList⟩], [], [⟨1, .ReadableFile, "../docs".toList⟩],
          ["/bin/ls".toList, "/usr/bin/ls".toList]⟩
        (Path.of_text "/work/src".toList) [Path.of_text "/work".toList] [] ↔
      CwdCovered ls ⟨"ls".toList, ["-l".toList, "../docs".toList]⟩
        (Path.of_text "/work/src".toList) [Path.of_text "/work".toList] := by
  apply accepted_call_bounded_iff absolutizes_lexically
  · rfl
  · decide
  · show ExecvChecker.check _ _ (fun _ => true) _ _ _ _ = .ok "/bin/ls".toList
    decide

/-- `ls` from `/secret` is accepted although no folder can be read. -/
theorem ls_secret_not_bounded :
    let exec : ValidExec := ⟨"ls".toList, [], [], [], ["/bin/ls".toList, "/usr/bin/ls".toList]⟩
    Absolutizes absolutize_lexically (fun file => .ok (normalized file)) ∧
      ls.check ⟨"ls".toList, []⟩ = .ok (.Match exec) ∧
      ExecvChecker.check absolutize_lexically (fun file => .ok (normalized file)) (fun _ => true)
        exec (some (Path.of_text "/secret".toList)) [] [] = .ok "/bin/ls".toList ∧
      ¬ Bounded ls ⟨"ls".toList, []⟩ exec (Path.of_text "/secret".toList) [] [] := by
  refine ⟨absolutizes_lexically, by decide, by decide, ?_⟩
  intro hbounded
  exact absurd (hbounded.cwd [] [] rfl rfl) (by decide)

end Ecode.execpolicy
