-- The environment that the model is told about (core/src/environment_context.rs):
-- snapshots, their fingerprints, the deltas between them, and the tracker that
-- emits a snapshot first and deltas after it.
import Ecode.Json
import Ecode.Policies

namespace Ecode.environment

open json Json

/-! ## The parts of a snapshot -/

inductive SandboxMode where
  | ReadOnly
  | WorkspaceWrite
  | DangerFullAccess
  deriving DecidableEq, Repr

inductive NetworkAccess where
  | Restricted
  | Enabled
  deriving DecidableEq, Repr

structure OperatingSystemInfo where
  family : Option Text
  version : Option Text
  architecture : Option Text
  deriving DecidableEq, Repr

/-- A path of the system: the text that it is, or the bytes of one that is no text. -/
inductive SystemPath where
  | text (path : Text)
  | other (bytes : List UInt8)
  deriving DecidableEq, Repr

inductive Shell where
  | Zsh (shell_path zshrc_path : Text)
  | Bash (shell_path bashrc_path : Text)
  | PowerShell (exe : Text) (bash_exe_fallback : Option SystemPath)
  | Unknown
  deriving DecidableEq, Repr

/-! ## Their names and their JSON -/

/-- `Display` of the policy. The settings of `Reject` are not shown. -/
def approval_name : AskForApproval → Text
  | .UnlessTrusted => "untrusted".toList
  | .OnFailure => "on-failure".toList
  | .OnRequest => "on-request".toList
  | .Reject _ => "reject".toList
  | .Never => "never".toList

def approval_to_value : AskForApproval → Json
  | .Reject config => object [("reject".toList, object [
      ("mcp_elicitations".toList, bool config.mcp_elicitations),
      ("request_permissions".toList, bool config.request_permissions),
      ("rules".toList, bool config.rules),
      ("sandbox_approval".toList, bool config.sandbox_approval),
      ("skill_approval".toList, bool config.skill_approval)])]
  | policy => string (approval_name policy)

def reject_from_value (value : Json) : Option RejectConfig := do
  let fields ← as_struct ["sandbox_approval".toList, "rules".toList, "skill_approval".toList,
    "request_permissions".toList, "mcp_elicitations".toList] value
  match fields with
  | [sandbox_approval, rules, skill_approval, request_permissions, mcp_elicitations] =>
    some {
      sandbox_approval := ← required as_bool sandbox_approval
      rules := ← required as_bool rules
      skill_approval := ← defaulted false as_bool skill_approval
      request_permissions := ← defaulted false as_bool request_permissions
      mcp_elicitations := ← required as_bool mcp_elicitations }
  | _ => none

/-- The value without data that a variant names. -/
def from_unit {α : Type} (values : List (Text × α)) (value : Json) : Option α := do
  let (name, data) ← as_variant value
  if is_unit data then values.lookup name else none

def approval_from_value (value : Json) : Option AskForApproval :=
  match as_variant value with
  | some (name, some data) =>
    if name = "reject".toList then (reject_from_value data).map .Reject else units
  | _ => units
where
  units := from_unit [("untrusted".toList, .UnlessTrusted), ("on-failure".toList, .OnFailure),
    ("on-request".toList, .OnRequest), ("never".toList, .Never)] value

def sandbox_mode_name : SandboxMode → Text
  | .ReadOnly => "read-only".toList
  | .WorkspaceWrite => "workspace-write".toList
  | .DangerFullAccess => "danger-full-access".toList

def sandbox_mode_from_value : Json → Option SandboxMode :=
  from_unit [("read-only".toList, .ReadOnly), ("workspace-write".toList, .WorkspaceWrite),
    ("danger-full-access".toList, .DangerFullAccess)]

def network_access_name : NetworkAccess → Text
  | .Restricted => "restricted".toList
  | .Enabled => "enabled".toList

def network_access_from_value : Json → Option NetworkAccess :=
  from_unit [("restricted".toList, .Restricted), ("enabled".toList, .Enabled)]

def operating_system_to_value (os : OperatingSystemInfo) : Json :=
  object [("architecture".toList, of_option string os.architecture),
    ("family".toList, of_option string os.family),
    ("version".toList, of_option string os.version)]

def operating_system_from_value (value : Json) : Option OperatingSystemInfo := do
  let fields ← as_struct ["family".toList, "version".toList, "architecture".toList] value
  match fields with
  | [family, version, architecture] =>
    some {
      family := ← optional as_string family
      version := ← optional as_string version
      architecture := ← optional as_string architecture }
  | _ => none

/-- A path that is no text fails to serialize. -/
def path_to_value : SystemPath → Option Json
  | .text path => some (string path)
  | .other _ => none

def path_from_value (value : Json) : Option SystemPath := (as_string value).map .text

def shell_to_value : Shell → Option Json
  | .Zsh shell_path zshrc_path => some (object [("Zsh".toList, object [
      ("shell_path".toList, string shell_path), ("zshrc_path".toList, string zshrc_path)])])
  | .Bash shell_path bashrc_path => some (object [("Bash".toList, object [
      ("bashrc_path".toList, string bashrc_path), ("shell_path".toList, string shell_path)])])
  | .PowerShell exe none => some (power_shell exe null)
  | .PowerShell exe (some path) => (path_to_value path).map (power_shell exe)
  | .Unknown => some (string "Unknown".toList)
where
  power_shell (exe : Text) (bash_exe_fallback : Json) : Json :=
    object [("PowerShell".toList, object [("bash_exe_fallback".toList, bash_exe_fallback),
      ("exe".toList, string exe)])]

/-- A struct with two texts. -/
def two_texts (first second : Text) (value : Json) : Option (Text × Text) := do
  let fields ← as_struct [first, second] value
  match fields with
  | [a, b] => some (← required as_string a, ← required as_string b)
  | _ => none

def power_shell_from_value (value : Json) : Option Shell := do
  let fields ← as_struct ["exe".toList, "bash_exe_fallback".toList] value
  match fields with
  | [exe, bash_exe_fallback] =>
    some (.PowerShell (← required as_string exe) (← optional path_from_value bash_exe_fallback))
  | _ => none

def shell_from_value (value : Json) : Option Shell :=
  match as_variant value with
  | some (name, some data) =>
    if name = "Zsh".toList then
      (two_texts "shell_path".toList "zshrc_path".toList data).map fun p => .Zsh p.1 p.2
    else if name = "Bash".toList then
      (two_texts "shell_path".toList "bashrc_path".toList data).map fun p => .Bash p.1 p.2
    else if name = "PowerShell".toList then power_shell_from_value data
    else from_unit [("Unknown".toList, .Unknown)] value
  | _ => from_unit [("Unknown".toList, .Unknown)] value

/-! ## Snapshots and deltas -/

@[ext]
structure EnvironmentContextSnapshot where
  version : Nat
  cwd : Option Text
  approval_policy : Option AskForApproval
  sandbox_mode : Option SandboxMode
  network_access : Option NetworkAccess
  writable_roots : List Text
  operating_system : Option OperatingSystemInfo
  common_tools : List Text
  shell : Option Shell
  git_branch : Option Text
  reasoning_effort : Option Text
  deriving DecidableEq, Repr

/-- `EnvironmentContextDelta`, with the changes in the order of their keys. -/
structure EnvironmentContextDelta where
  version : Nat
  base_fingerprint : Text
  changes : List (Text × Json)

namespace EnvironmentContextSnapshot

def VERSION : Nat := 1

/-- One entry of the map that is hashed. -/
def hashed (key : String) (value : Option Text) : List (Text × Text) :=
  (value.map fun value => (key.toList, value)).toList

section fingerprint

-- `sha1_hex` is SHA-1 of the bytes of a text, written in hexadecimal digits
variable (sha1_hex : Text → Text)

/-- `fingerprint`: the hash of the fields that are there, in the order of their keys. -/
def fingerprint (s : EnvironmentContextSnapshot) : Text :=
  sha1_hex (encode_map (
    hashed "approval_policy" (s.approval_policy.map approval_name) ++
    hashed "cwd" s.cwd ++
    hashed "git_branch" s.git_branch ++
    hashed "network_access" (s.network_access.map network_access_name) ++
    hashed "reasoning_effort" s.reasoning_effort ++
    hashed "sandbox_mode" (s.sandbox_mode.map sandbox_mode_name) ++
    hashed "writable_roots"
      (if s.writable_roots = [] then none else some (Text.join ['|'] s.writable_roots))))

/-- One entry of the changes. -/
def change (key : String) (changed : Bool) (value : Json) : List (Text × Json) :=
  if changed then [(key.toList, value)] else []

def diff_from (s previous : EnvironmentContextSnapshot) : EnvironmentContextDelta where
  version := VERSION
  base_fingerprint := previous.fingerprint sha1_hex
  changes :=
    change "approval_policy" (s.approval_policy ≠ previous.approval_policy)
      (of_option approval_to_value s.approval_policy) ++
    change "common_tools" (s.common_tools ≠ previous.common_tools) (of_strings s.common_tools) ++
    change "cwd" (s.cwd ≠ previous.cwd) (of_option string s.cwd) ++
    change "git_branch" (s.git_branch ≠ previous.git_branch) (of_option string s.git_branch) ++
    change "network_access" (s.network_access ≠ previous.network_access)
      (of_option (fun access => string (network_access_name access)) s.network_access) ++
    change "operating_system" (s.operating_system ≠ previous.operating_system)
      (of_option operating_system_to_value s.operating_system) ++
    change "reasoning_effort" (s.reasoning_effort ≠ previous.reasoning_effort)
      (of_option string s.reasoning_effort) ++
    change "sandbox_mode" (s.sandbox_mode ≠ previous.sandbox_mode)
      (of_option (fun mode => string (sandbox_mode_name mode)) s.sandbox_mode) ++
    -- what fails to serialize is written as `null`
    change "shell" (s.shell ≠ previous.shell)
      (of_option (fun shell => (shell_to_value shell).getD null) s.shell) ++
    change "writable_roots" (s.writable_roots ≠ previous.writable_roots)
      (of_strings s.writable_roots)

end fingerprint

/-- A field that a value replaces when it can be read. -/
def replaced {α : Type} (read : Json → Option α) (value : Json) (old : Option α) : Option α :=
  match read value with
  | some new => some new
  | none => old

/-- A field that `null` clears, a text replaces and other values leave. -/
def cleared_or_replaced (value : Json) (old : Option Text) : Option Text :=
  match value with
  | null => none
  | string t => some t
  | _ => old

def apply_change (updated : EnvironmentContextSnapshot) (key : Text) (value : Json) :
    EnvironmentContextSnapshot :=
  if key = "cwd".toList then { updated with cwd := as_string value }
  else if key = "approval_policy".toList then
    { updated with
      approval_policy := replaced approval_from_value value updated.approval_policy }
  else if key = "sandbox_mode".toList then
    { updated with sandbox_mode := replaced sandbox_mode_from_value value updated.sandbox_mode }
  else if key = "network_access".toList then
    { updated with
      network_access := replaced network_access_from_value value updated.network_access }
  else if key = "writable_roots".toList then
    { updated with writable_roots := (as_list as_string value).getD updated.writable_roots }
  else if key = "operating_system".toList then
    { updated with
      operating_system := replaced operating_system_from_value value updated.operating_system }
  else if key = "common_tools".toList then
    { updated with common_tools := (as_list as_string value).getD updated.common_tools }
  else if key = "shell".toList then
    { updated with shell := replaced shell_from_value value updated.shell }
  else if key = "git_branch".toList then
    { updated with git_branch := cleared_or_replaced value updated.git_branch }
  else if key = "reasoning_effort".toList then
    { updated with reasoning_effort := cleared_or_replaced value updated.reasoning_effort }
  else updated

def apply_delta (s : EnvironmentContextSnapshot) (delta : EnvironmentContextDelta) :
    EnvironmentContextSnapshot :=
  delta.changes.foldl (fun updated change => updated.apply_change change.1 change.2) s

end EnvironmentContextSnapshot

/-! ## The tracker -/

inductive EnvironmentContextEmission where
  | Full (sequence : Nat) (snapshot : EnvironmentContextSnapshot)
  | Delta (sequence : Nat) (snapshot : EnvironmentContextSnapshot) (delta : EnvironmentContextDelta)

def EnvironmentContextEmission.snapshot : EnvironmentContextEmission → EnvironmentContextSnapshot
  | .Full _ snapshot => snapshot
  | .Delta _ snapshot _ => snapshot

structure EnvironmentContextTracker where
  next_sequence : Nat
  last_snapshot : Option EnvironmentContextSnapshot
  deriving DecidableEq, Repr

namespace EnvironmentContextTracker

def new : EnvironmentContextTracker := ⟨0, none⟩

variable (sha1_hex : Text → Text)

/-- `observe`: the tracker after it, and the emission if there is one. -/
def observe (t : EnvironmentContextTracker) (snapshot : EnvironmentContextSnapshot) :
    EnvironmentContextTracker × Option EnvironmentContextEmission :=
  match t.last_snapshot with
  | none =>
    let next_sequence := t.next_sequence + 1
    (⟨next_sequence, some snapshot⟩, some (.Full next_sequence snapshot))
  | some previous =>
    if snapshot.fingerprint sha1_hex = previous.fingerprint sha1_hex then (t, none)
    else
      let next_sequence := t.next_sequence + 1
      (⟨next_sequence, some snapshot⟩,
        some (.Delta next_sequence snapshot (snapshot.diff_from sha1_hex previous)))

/-- The emissions of a tracker that observes one snapshot after another. -/
def emissions (t : EnvironmentContextTracker) :
    List EnvironmentContextSnapshot → List EnvironmentContextEmission
  | [] => []
  | snapshot :: rest =>
    let (t, emission) := observe sha1_hex t snapshot
    emission.toList ++ emissions t rest

end EnvironmentContextTracker

end Ecode.environment
