-- The policies of a session (core/src/protocol.rs): when the user is asked, and
-- where the agent may write.
import Ecode.Paths

namespace Ecode

/-- `RejectConfig`: the kinds of prompts that are rejected. -/
structure RejectConfig where
  sandbox_approval : Bool
  rules : Bool
  skill_approval : Bool
  request_permissions : Bool
  mcp_elicitations : Bool
  deriving DecidableEq, Repr

inductive AskForApproval where
  | UnlessTrusted
  | OnFailure
  | OnRequest
  | Reject (config : RejectConfig)
  | Never
  deriving DecidableEq, Repr

inductive SandboxPolicy where
  | DangerFullAccess
  | ReadOnly
  | WorkspaceWrite (writable_roots : List Path) (network_access exclude_tmpdir_env_var
      exclude_slash_tmp allow_git_writes : Bool)
  deriving DecidableEq, Repr

inductive Os where
  | Macos
  | Linux
  | OtherUnix
  | Windows
  deriving DecidableEq, Repr

/-- What the policies read of the machine: its system, its directories and `TMPDIR`. -/
structure Platform where
  os : Os
  is_dir : Path → Bool
  tmpdir : Option Text

inductive SandboxType where
  | None
  | MacosSeatbelt
  | LinuxSeccomp
  deriving DecidableEq, Repr

def get_platform_sandbox (platform : Platform) : Option SandboxType :=
  match platform.os with
  | .Macos => some .MacosSeatbelt
  | .Linux => some .LinuxSeccomp
  | .OtherUnix | .Windows => none

structure WritableRoot where
  root : Path
  read_only_subpaths : List Path
  deriving DecidableEq, Repr

def WritableRoot.is_path_writable (r : WritableRoot) (path : Path) : Bool :=
  Path.starts_with path r.root && r.read_only_subpaths.all fun sub => !Path.starts_with path sub

/-- The roots of a policy before their read-only parts: the configured ones, `cwd`, `/tmp` and
the directory of `TMPDIR`. -/
def roots_with_cwd (platform : Platform) (writable_roots : List Path)
    (exclude_tmpdir_env_var exclude_slash_tmp : Bool) (cwd : Path) : List Path :=
  let slash_tmp := Path.of_text "/tmp".toList
  writable_roots ++ [cwd] ++
    (if platform.os ≠ .Windows ∧ !exclude_slash_tmp ∧ platform.is_dir slash_tmp then [slash_tmp]
      else []) ++
    (match platform.tmpdir with
      | some tmpdir => if !exclude_tmpdir_env_var ∧ tmpdir ≠ [] then [Path.of_text tmpdir] else []
      | none => [])

def SandboxPolicy.get_writable_roots_with_cwd (platform : Platform) (cwd : Path) :
    SandboxPolicy → List WritableRoot
  | .DangerFullAccess | .ReadOnly => []
  | .WorkspaceWrite writable_roots _ exclude_tmpdir_env_var exclude_slash_tmp allow_git_writes =>
    (roots_with_cwd platform writable_roots exclude_tmpdir_env_var exclude_slash_tmp cwd).map
      fun root =>
        let top_level_git := Path.join root (Path.of_text ".git".toList)
        ⟨root, if !allow_git_writes ∧ platform.is_dir top_level_git then [top_level_git] else []⟩

end Ecode
