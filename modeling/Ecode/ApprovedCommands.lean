-- The commands that the user approved for a session (core/src/codex/session.rs,
-- util.rs and safety.rs). The law says on which scripts a prefix approval covers
-- only commands with that prefix.
import Ecode.ShellWords
import Ecode.PatchSafety

namespace Ecode.approved

open safety shell

/-! ## The pure model -/

inductive ApprovedCommandMatchKind where
  | Exact
  | Prefix
  deriving DecidableEq, Repr

structure ApprovedCommandPattern where
  argv : List Text
  kind : ApprovedCommandMatchKind
  semantic_prefix : Option (List Text)
  deriving DecidableEq, Repr

def ApprovedCommandPattern.new (argv : List Text) (kind : ApprovedCommandMatchKind)
    (semantic : Option (List Text)) : ApprovedCommandPattern :=
  { argv, kind
    semantic_prefix :=
      match kind with
      | .Prefix => some (semantic.getD argv)
      | .Exact => none }

def SHELL_NAMES : List Text :=
  ["bash".toList, "bash.exe".toList, "sh".toList, "sh.exe".toList, "zsh".toList, "zsh.exe".toList,
    "dash".toList, "dash.exe".toList, "ksh".toList, "ksh.exe".toList, "busybox".toList]

def is_shell_like_executable (token : Text) : Bool :=
  let trimmed := Text.trim_matches '\'' (Text.trim_matches '"' token)
  let name := (Path.file_name (Path.of_text trimmed)).getD trimmed
  Text.to_ascii_lowercase name ∈ SHELL_NAMES

def is_shell_flag (flag : Text) : Bool := flag = "-lc".toList || flag = "-c".toList

/-- `extract_shell_script`: the index of the script and the script. -/
def extract_shell_script (command : List Text) : Option (Nat × Text) :=
  match command with
  | [script] => some (0, script)
  | [first, second, third] =>
    if is_shell_like_executable first && is_shell_flag second then some (2, third) else none
  | _ => none

section matching

-- `shlex::split` is of another package.
variable (shlex_split : Text → Option (List Text))

def semantic_tokens (command : List Text) : Option (List Text) :=
  if command.isEmpty then none
  else match extract_shell_script command with
    | some (_, script) => some ((shlex_split script).getD [script])
    | none => some command

def ApprovedCommandPattern.matches (pattern : ApprovedCommandPattern) (command : List Text) : Bool :=
  match pattern.kind with
  | .Exact => command = pattern.argv
  | .Prefix =>
    if pattern.argv.isPrefixOf command then true
    else match pattern.semantic_prefix, semantic_tokens shlex_split command with
      | some tokens, some candidate => tokens.isPrefixOf candidate
      | _, _ => false

/-- `assess_safety_for_untrusted_command`. -/
def assess_safety_for_untrusted_command (platform : Platform) (approval_policy : AskForApproval)
    (sandbox_policy : SandboxPolicy) (with_escalated_permissions : Bool) : SafetyCheck :=
  let in_sandbox (otherwise : SafetyCheck) : SafetyCheck :=
    match get_platform_sandbox platform with
    | some sandbox_type => .AutoApprove sandbox_type false
    | none => otherwise
  match approval_policy, sandbox_policy with
  | .UnlessTrusted, _ => .AskUser
  | _, .DangerFullAccess => .AutoApprove .None false
  | .Reject config, _ =>
    if config.sandbox_approval || config.rules then
      .Reject "auto-rejected by approval policy".toList
    else if with_escalated_permissions then .AskUser
    else in_sandbox .AskUser
  | .OnRequest, _ => if with_escalated_permissions then .AskUser else in_sandbox .AskUser
  | .OnFailure, _ => in_sandbox .AskUser
  | .Never, _ =>
    in_sandbox (.Reject "auto-rejected because command is not on trusted list".toList)

/-- `assess_command_safety`. The list of known safe commands is `is_safe_command.rs`. -/
def assess_command_safety (is_known_safe_command : List Text → Bool) (platform : Platform)
    (command : List Text) (approval_policy : AskForApproval) (sandbox_policy : SandboxPolicy)
    (approved : List ApprovedCommandPattern) (with_escalated_permissions : Bool) : SafetyCheck :=
  let user_explicitly_approved := approved.any (·.matches shlex_split command)
  if is_known_safe_command command || user_explicitly_approved then
    .AutoApprove .None user_explicitly_approved
  else assess_safety_for_untrusted_command platform approval_policy sandbox_policy
    with_escalated_permissions

end matching

/-! ## What a prefix approval covers -/

/-- A command that runs a script in a shell. -/
def IsWrapper (shell flag : Text) : Prop :=
  is_shell_like_executable shell = true ∧ is_shell_flag flag = true

/-- When the pattern matches the wrapped script, then every simple command of the script begins
with the tokens of the pattern. -/
def Covers (shlex_split : Text → Option (List Text)) (pattern : ApprovedCommandPattern)
    (shell flag script : Text) : Prop :=
  pattern.matches shlex_split [shell, flag, script] = true →
    ∀ command ∈ simple_commands script, pattern.semantic_prefix.getD pattern.argv <+: command

/-! ## The laws -/

/-- A matching pattern approves the command without the sandbox. -/
theorem matching_pattern_approves (shlex_split : Text → Option (List Text))
    (is_known_safe_command : List Text → Bool) (platform : Platform) (command : List Text)
    (approval_policy : AskForApproval) (sandbox_policy : SandboxPolicy)
    (approved : List ApprovedCommandPattern) (with_escalated_permissions : Bool)
    {pattern : ApprovedCommandPattern} (hp : pattern ∈ approved)
    (hm : pattern.matches shlex_split command = true) :
    assess_command_safety shlex_split is_known_safe_command platform command approval_policy
      sandbox_policy approved with_escalated_permissions = .AutoApprove .None true := by
  have hany : approved.any (·.matches shlex_split command) = true :=
    List.any_eq_true.mpr ⟨pattern, hp, hm⟩
  simp [assess_command_safety, hany]

theorem matches_wrapper {shlex_split : Text → Option (List Text)} {argv : List Text}
    {semantic : Option (List Text)} {shell flag script : Text} (hw : IsWrapper shell flag) :
    (ApprovedCommandPattern.new argv .Prefix semantic).matches shlex_split [shell, flag, script] =
        true ↔
      argv <+: [shell, flag, script] ∨
        semantic.getD argv <+: (shlex_split script).getD [script] := by
  simp only [ApprovedCommandPattern.matches, ApprovedCommandPattern.new, semantic_tokens,
    extract_shell_script, hw.1, hw.2, List.isEmpty_cons, Bool.and_self, ↓reduceIte,
    Bool.false_eq_true, List.isPrefixOf_iff_prefix]
  split_ifs with h
  · simp [h]
  · simp [h, List.isPrefixOf_iff_prefix]

/-- When the tokens of the script begin each of its commands, then they are its one command. -/
theorem one_command_of_tokens_begin {script : Text}
    (h : ∀ command ∈ simple_commands script, (words script).getD [script] <+: command) :
    simple_commands script = [] ∨ ∃ ws, words script = some ws ∧ simple_commands script = [ws] := by
  rcases hs : simple_commands script with _ | ⟨c, cs⟩
  · exact .inl rfl
  · right
    have hc := h c (by rw [hs]; exact List.mem_cons_self)
    rcases hw : words script with _ | ws
    · rw [hw] at hc
      exact absurd hc (open_script_begins_none hw hs)
    · rw [hw] at hc
      obtain ⟨rfl, rfl⟩ := words_begin_first hw hs hc
      exact ⟨_, rfl, rfl⟩

/-- Over all prefix patterns, only a script that runs nothing is covered, since a pattern that is
the beginning of the wrapper itself matches every script. Over the patterns that are not, the
covered scripts are those that run nothing or one command, without an operator. -/
theorem prefix_approval_covers_iff (shlex_split : Text → Option (List Text))
    (hshlex : ∀ script, shlex_split script = words script) (script : Text) :
    ((∀ argv semantic shell flag, IsWrapper shell flag →
        Covers shlex_split (.new argv .Prefix semantic) shell flag script) ↔
      simple_commands script = []) ∧
    ((∀ argv semantic shell flag, IsWrapper shell flag → ¬ argv <+: [shell, flag, script] →
        Covers shlex_split (.new argv .Prefix semantic) shell flag script) ↔
      simple_commands script = [] ∨
        ∃ ws, words script = some ws ∧ simple_commands script = [ws]) := by
  refine ⟨⟨fun h => ?_, fun h => ?_⟩, ⟨fun h => ?_, fun h => ?_⟩⟩
  · -- The two patterns `bash` and `sh` begin no command both.
    have hbegin : ∀ shell : Text, is_shell_like_executable shell = true →
        ∀ command ∈ simple_commands script, [shell] <+: command := by
      intro shell hshell command hc
      have hw : IsWrapper shell "-c".toList := ⟨hshell, rfl⟩
      refine h [shell] none shell "-c".toList hw ((matches_wrapper hw).mpr (.inl ?_)) command hc
      exact ⟨["-c".toList, script], rfl⟩
    rcases hs : simple_commands script with _ | ⟨c, cs⟩
    · rfl
    · have hbash := hbegin "bash".toList (by decide) c (by simp [hs])
      have hsh := hbegin "sh".toList (by decide) c (by simp [hs])
      obtain ⟨u, rfl⟩ := hbash
      simp at hsh
  · intro argv semantic shell flag hw hm command hc
    rw [h] at hc
    cases hc
  · apply one_command_of_tokens_begin
    intro command hc
    have hw : IsWrapper "bash".toList "-c".toList := ⟨by decide, rfl⟩
    -- A pattern with four arguments is not the beginning of the wrapper.
    have hlit : ¬ List.replicate 4 ([] : Text) <+: ["bash".toList, "-c".toList, script] :=
      fun hp => absurd hp.length_le (by simp)
    refine h _ (some ((words script).getD [script])) _ _ hw hlit ((matches_wrapper hw).mpr ?_)
      command hc
    rw [hshlex]
    exact .inr (List.prefix_refl _)
  · intro argv semantic shell flag hw hlit hm command hc
    rw [matches_wrapper hw, hshlex] at hm
    rcases h with h | ⟨ws, hws, h⟩
    · rw [h] at hc
      cases hc
    · rw [h, List.mem_singleton] at hc
      rw [hws] at hm
      rw [hc]
      exact hm.resolve_left hlit

theorem git_approval_covers_git_status :
    Covers words (.new ["git".toList] .Prefix none) "bash".toList "-lc".toList
      "git status".toList :=
  (prefix_approval_covers_iff words (fun _ => rfl) "git status".toList).2.mpr
    (.inr ⟨["git".toList, "status".toList], by decide, by decide⟩) ["git".toList] none "bash".toList
    "-lc".toList ⟨by decide, by decide⟩ (by decide)

/-- The approval of `git status` also runs what follows it after an operator. -/
theorem git_status_approval_runs_rm :
    IsWrapper "bash".toList "-lc".toList ∧
      ¬ Covers words (.new ["git".toList, "status".toList] .Prefix none) "bash".toList "-lc".toList
        "git status && rm -rf x".toList := by
  refine ⟨⟨by decide, by decide⟩, fun h => ?_⟩
  have hbegin := h (by decide) ["rm".toList, "-rf".toList, "x".toList] (by decide)
  exact absurd hbegin (by decide)

end Ecode.approved
