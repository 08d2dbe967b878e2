-- A delta of the environment (core/src/environment_context.rs), applied to the snapshot that it
-- was taken from: which of the fields it brings up to date.
import Ecode.EnvironmentContext

namespace Ecode.environment

open json Json

/-! ## What is written is read back -/

theorem approval_round_trip (policy : AskForApproval) :
    approval_from_value (approval_to_value policy) = some policy := by
  cases policy <;> rfl

theorem sandbox_mode_round_trip (mode : SandboxMode) :
    sandbox_mode_from_value (string (sandbox_mode_name mode)) = some mode := by
  cases mode <;> rfl

theorem network_access_round_trip (access : NetworkAccess) :
    network_access_from_value (string (network_access_name access)) = some access := by
  cases access <;> rfl

theorem operating_system_round_trip (os : OperatingSystemInfo) :
    operating_system_from_value (operating_system_to_value os) = some os := by
  obtain ⟨family, version, architecture⟩ := os
  cases family <;> cases version <;> cases architecture <;> rfl

/-- The shells that can be written. -/
def Shell.is_text : Shell → Bool
  | .PowerShell _ (some (.other _)) => false
  | _ => true

theorem shell_round_trip (shell : Shell) :
    shell_from_value ((shell_to_value shell).getD null) =
      if shell.is_text then some shell else none := by
  cases shell with
  | PowerShell exe bash_exe_fallback =>
    rcases bash_exe_fallback with _ | path
    · rfl
    · cases path <;> rfl
  | _ => rfl

theorem strings_round_trip (ts : List Text) : as_list as_string (of_strings ts) = some ts := by
  unfold as_list of_strings
  induction ts with
  | nil => rfl
  | cons t ts ih =>
    dsimp only at ih ⊢
    rw [List.map_cons, List.mapM_cons, ih]
    rfl

/-! ## The changes one by one -/

namespace EnvironmentContextSnapshot

/-- The changes applied one after another. -/
def apply_changes (s : EnvironmentContextSnapshot) (changes : List (Text × Json)) :
    EnvironmentContextSnapshot :=
  changes.foldl (fun updated change => updated.apply_change change.1 change.2) s

theorem apply_changes_append (s : EnvironmentContextSnapshot) (cs ds : List (Text × Json)) :
    s.apply_changes (cs ++ ds) = (s.apply_changes cs).apply_changes ds :=
  List.foldl_append

section changes

variable (s : EnvironmentContextSnapshot) (changed : Bool) (value : Json)

theorem apply_approval_policy : s.apply_changes (change "approval_policy" changed value) =
    { s with
      approval_policy := if changed then replaced approval_from_value value s.approval_policy
        else s.approval_policy } := by
  cases changed <;> rfl

theorem apply_common_tools : s.apply_changes (change "common_tools" changed value) =
    { s with
      common_tools := if changed then (as_list as_string value).getD s.common_tools
        else s.common_tools } := by
  cases changed <;> rfl

theorem apply_cwd : s.apply_changes (change "cwd" changed value) =
    { s with cwd := if changed then as_string value else s.cwd } := by
  cases changed <;> rfl

theorem apply_git_branch : s.apply_changes (change "git_branch" changed value) =
    { s with
      git_branch := if changed then cleared_or_replaced value s.git_branch
        else s.git_branch } := by
  cases changed <;> rfl

theorem apply_network_access : s.apply_changes (change "network_access" changed value) =
    { s with
      network_access := if changed then replaced network_access_from_value value s.network_access
        else s.network_access } := by
  cases changed <;> rfl

theorem apply_operating_system : s.apply_changes (change "operating_system" changed value) =
    { s with
      operating_system :=
        if changed then replaced operating_system_from_value value s.operating_system
        else s.operating_system } := by
  cases changed <;> rfl

theorem apply_reasoning_effort : s.apply_changes (change "reasoning_effort" changed value) =
    { s with
      reasoning_effort := if changed then cleared_or_replaced value s.reasoning_effort
        else s.reasoning_effort } := by
  cases changed <;> rfl

theorem apply_sandbox_mode : s.apply_changes (change "sandbox_mode" changed value) =
    { s with
      sandbox_mode := if changed then replaced sandbox_mode_from_value value s.sandbox_mode
        else s.sandbox_mode } := by
  cases changed <;> rfl

theorem apply_shell : s.apply_changes (change "shell" changed value) =
    { s with shell := if changed then replaced shell_from_value value s.shell else s.shell } := by
  cases changed <;> rfl

theorem apply_writable_roots : s.apply_changes (change "writable_roots" changed value) =
    { s with
      writable_roots := if changed then (as_list as_string value).getD s.writable_roots
        else s.writable_roots } := by
  cases changed <;> rfl

end changes

/-- A field that the delta names gets what is read of its value, and others stay. -/
def updated {α : Type} [DecidableEq α] (read : Json → α → α) (write : α → Json)
    (current previous : α) : α :=
  if decide (current ≠ previous) then read (write current) previous else previous

/-- A field whose values are read back is brought up to date. -/
theorem updated_eq {α : Type} [DecidableEq α] {read : Json → α → α} {write : α → Json}
    {current previous : α} (h : read (write current) previous = current) :
    updated read write current previous = current := by
  unfold updated
  split
  · exact h
  · next heq =>
    rw [decide_eq_true_iff, not_not] at heq
    exact heq.symm

/-- A field that keeps its value when the written one cannot be read is brought up to date
exactly when the written one can, or the field did not change. -/
theorem updated_replaced_iff {α : Type} [DecidableEq α] {read : Json → Option α} {write : α → Json}
    {p : α → Bool} (hread : ∀ a, read (write a) = if p a then some a else none)
    (hnull : read null = none) (current previous : Option α) :
    updated (replaced read) (of_option write) current previous = current ↔
      current = previous ∨ current.any p = true := by
  unfold updated
  by_cases h : current = previous
  · simp [h]
  · rw [if_pos (decide_eq_true h)]
    rcases current with _ | a
    · simp [replaced, of_option, hnull, eq_comm]
    · cases hp : p a <;> simp [replaced, of_option, hread, hp, h, Ne.symm h]

/-- Where every value can be read, just a value that vanishes is not. -/
theorem updated_vanished_iff {α : Type} [DecidableEq α] {read : Json → Option α} {write : α → Json}
    (hread : ∀ a, read (write a) = some a) (hnull : read null = none)
    (current previous : Option α) :
    updated (replaced read) (of_option write) current previous = current ↔
      (current = none → previous = none) := by
  rw [updated_replaced_iff (p := fun _ => true) (by simpa using hread) hnull]
  rcases current with _ | a
  · simp [eq_comm]
  · simp

variable (sha1_hex : Text → Text) (current previous : EnvironmentContextSnapshot)

/-- Every field after the delta, by itself. -/
theorem apply_diff_eq : previous.apply_delta (current.diff_from sha1_hex previous) =
    { version := previous.version
      cwd := updated (fun value _ => as_string value) (of_option string) current.cwd previous.cwd
      approval_policy := updated (replaced approval_from_value) (of_option approval_to_value)
        current.approval_policy previous.approval_policy
      sandbox_mode := updated (replaced sandbox_mode_from_value)
        (of_option fun mode => string (sandbox_mode_name mode))
        current.sandbox_mode previous.sandbox_mode
      network_access := updated (replaced network_access_from_value)
        (of_option fun access => string (network_access_name access))
        current.network_access previous.network_access
      writable_roots := updated (fun value old => (as_list as_string value).getD old) of_strings
        current.writable_roots previous.writable_roots
      operating_system := updated (replaced operating_system_from_value)
        (of_option operating_system_to_value) current.operating_system previous.operating_system
      common_tools := updated (fun value old => (as_list as_string value).getD old) of_strings
        current.common_tools previous.common_tools
      shell := updated (replaced shell_from_value)
        (of_option fun shell => (shell_to_value shell).getD null) current.shell previous.shell
      git_branch := updated cleared_or_replaced (of_option string)
        current.git_branch previous.git_branch
      reasoning_effort := updated cleared_or_replaced (of_option string)
        current.reasoning_effort previous.reasoning_effort } := by
  change previous.apply_changes _ = _
  simp only [diff_from, apply_changes_append, apply_approval_policy, apply_common_tools, apply_cwd,
    apply_git_branch, apply_network_access, apply_operating_system, apply_reasoning_effort,
    apply_sandbox_mode, apply_shell, apply_writable_roots, updated]

/-! ## A delta on the snapshot that it was taken from -/

/-- The delta between two snapshots of one version makes the later one of the earlier one exactly
when no policy, sandbox mode, network access or operating system vanishes between them, and the
shell either stays or is one that can be written. -/
theorem delta_gives_current_iff (h : current.version = previous.version) :
    previous.apply_delta (current.diff_from sha1_hex previous) = current ↔
      (current.approval_policy = none → previous.approval_policy = none) ∧
      (current.sandbox_mode = none → previous.sandbox_mode = none) ∧
      (current.network_access = none → previous.network_access = none) ∧
      (current.operating_system = none → previous.operating_system = none) ∧
      (current.shell = previous.shell ∨ current.shell.any Shell.is_text = true) := by
  have htexts : ∀ current previous : Option Text,
      updated cleared_or_replaced (of_option string) current previous = current := by
    intro current previous
    apply updated_eq
    cases current <;> rfl
  have hcwd : updated (fun value _ => as_string value) (of_option string) current.cwd previous.cwd =
      current.cwd := by
    apply updated_eq
    cases current.cwd <;> rfl
  have hlists : ∀ current previous : List Text,
      updated (fun value old => (as_list as_string value).getD old) of_strings current previous =
        current := by
    intro current previous
    apply updated_eq
    rw [strings_round_trip, Option.getD_some]
  rw [apply_diff_eq, EnvironmentContextSnapshot.ext_iff]
  simp only [h, htexts, hcwd, hlists, true_and, and_true]
  rw [updated_vanished_iff approval_round_trip rfl,
    updated_vanished_iff sandbox_mode_round_trip rfl,
    updated_vanished_iff network_access_round_trip rfl,
    updated_vanished_iff operating_system_round_trip rfl,
    updated_replaced_iff shell_round_trip rfl]

/-- A snapshot without any field. -/
def empty : EnvironmentContextSnapshot where
  version := VERSION
  cwd := none
  approval_policy := none
  sandbox_mode := none
  network_access := none
  writable_roots := []
  operating_system := none
  common_tools := []
  shell := none
  git_branch := none
  reasoning_effort := none

/-- The directory and the branch vanish, and the sandbox appears. -/
theorem delta_clears_texts :
    { empty with cwd := some ['/'], git_branch := some ['m'] }.apply_delta
        ({ empty with sandbox_mode := some .ReadOnly }.diff_from id
          { empty with cwd := some ['/'], git_branch := some ['m'] }) =
      { empty with sandbox_mode := some .ReadOnly } :=
  (delta_gives_current_iff id { empty with sandbox_mode := some .ReadOnly }
    { empty with cwd := some ['/'], git_branch := some ['m'] } rfl).mpr (by decide)

/-- A sandbox that vanishes stays. -/
theorem delta_keeps_vanished_sandbox :
    ¬ ∀ (sha1_hex : Text → Text) (current previous : EnvironmentContextSnapshot),
      current.version = previous.version →
        previous.apply_delta (current.diff_from sha1_hex previous) = current := by
  intro h
  have hstays : { empty with sandbox_mode := some .ReadOnly }.apply_delta
      (empty.diff_from id { empty with sandbox_mode := some .ReadOnly }) ≠ empty := by decide
  exact hstays (h id empty _ rfl)

end EnvironmentContextSnapshot

end Ecode.environment
