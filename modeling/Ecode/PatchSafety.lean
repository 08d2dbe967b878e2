-- The safety check of patches (core/src/safety.rs). The law says when a patch
-- that is approved without the user can write outside of the writable roots.
import Ecode.ApplyInProcess
import Ecode.Policies

namespace Ecode.safety

open apply_patch

/-! ## The pure model -/

inductive SafetyCheck where
  | AutoApprove (sandbox_type : SandboxType) (user_explicitly_approved : Bool)
  | AskUser
  | Reject (reason : Text)
  deriving DecidableEq, Repr

/-- `normalize`: without `.`, and with `..` resolved by the text alone. -/
def normalize (path : Path) : Path :=
  path.foldl (fun out comp =>
    match comp with
    | .ParentDir => Path.pop out
    | .CurDir => out
    | other => Path.push out other) []

/-- A path from `cwd`, in its absolute and normal form. -/
def absolute_form (cwd p : Path) : Path :=
  normalize (if Path.is_absolute p then p else Path.join cwd p)

def is_path_writable (writable_roots : List WritableRoot) (cwd p : Path) : Bool :=
  writable_roots.any fun writable_root => writable_root.is_path_writable (absolute_form cwd p)

/-- The paths that a change names: its own and the one it moves to. -/
def paths_of : Path × ApplyPatchFileChange → List Path
  | (path, .Add _) => [path]
  | (path, .Delete _) => [path]
  | (path, .Update _ move_path _) => path :: move_path.toList

def is_write_patch_constrained_to_writable_paths (platform : Platform) (action : ApplyPatchAction)
    (sandbox_policy : SandboxPolicy) (cwd : Path) : Bool :=
  match sandbox_policy with
  | .ReadOnly => false
  | .DangerFullAccess => true
  | .WorkspaceWrite .. =>
    action.changes.entries.all fun e => (paths_of e).all
      (is_path_writable (sandbox_policy.get_writable_roots_with_cwd platform cwd) cwd)

def assess_patch_safety (platform : Platform) (action : ApplyPatchAction) (policy : AskForApproval)
    (sandbox_policy : SandboxPolicy) (cwd : Path) : SafetyCheck :=
  if action.is_empty then .Reject "empty patch".toList
  else if sandbox_policy = .ReadOnly then
    match policy with
    | .Never => .Reject
        "write operations require approval but approval policy is set to never".toList
    | .Reject config =>
      if config.sandbox_approval || config.rules then .Reject
        "write operations require approval but approval policy is set to reject".toList
      else .AskUser
    | _ => .AskUser
  else if policy = .UnlessTrusted then .AskUser
  else if is_write_patch_constrained_to_writable_paths platform action sandbox_policy cwd ∨
      policy = .OnFailure then
    match get_platform_sandbox platform with
    | some sandbox_type => .AutoApprove sandbox_type false
    | none =>
      if sandbox_policy = .DangerFullAccess then .AutoApprove .None false else .AskUser
  else if policy = .Never then .Reject
    "writing outside of the project; rejected by user approval settings".toList
  else .AskUser

/-! ## The writes of an approved patch -/

/-- A path lies inside of one of the roots, in its normal form. -/
def Inside (writable_roots : List WritableRoot) (cwd p : Path) : Prop :=
  ∃ r ∈ writable_roots, Path.starts_with (absolute_form cwd p) r.root

instance (writable_roots : List WritableRoot) (cwd p : Path) :
    Decidable (Inside writable_roots cwd p) :=
  inferInstanceAs (Decidable (∃ r ∈ writable_roots, _))

/-- When the check approves the patch without the user, then the applier touches only paths
inside of the roots, on every file system and in every order of the changes. -/
def SilentWritesStayInside (platform : Platform) (action : ApplyPatchAction)
    (policy : AskForApproval) (sandbox_policy : SandboxPolicy) (cwd : Path) : Prop :=
  (∃ sandbox_type, assess_patch_safety platform action policy sandbox_policy cwd =
      .AutoApprove sandbox_type false) →
    ∀ (σ : Type) (fs : FileSystem σ) (s : σ) (order : List (Path × ApplyPatchFileChange)),
      order.Perm action.changes.entries →
      ∀ op ∈ (apply_changes_from_apply_patch fs.logged order (s, [])).2.2, ∀ p ∈ op.touched,
        Inside (sandbox_policy.get_writable_roots_with_cwd platform cwd) cwd p

/-! ## The laws -/

theorem inside_of_writable {writable_roots : List WritableRoot} {cwd p : Path}
    (h : is_path_writable writable_roots cwd p) : Inside writable_roots cwd p := by
  obtain ⟨r, hr, hw⟩ := List.any_eq_true.mp h
  simp only [WritableRoot.is_path_writable, Bool.and_eq_true] at hw
  exact ⟨r, hr, hw.1⟩

theorem parent_dirs_touch_nothing (path : Path) :
    (parent_dirs_ops path).flatMap FileOp.touched = [] := by
  unfold parent_dirs_ops
  rcases Path.parent path with _ | parent
  · rfl
  · by_cases hp : parent = []
    · simp [hp]
    · simp [hp, FileOp.touched]

/-- The operations of a change touch exactly the paths that it names. -/
theorem mem_touched_iff {e : Path × ApplyPatchFileChange} {p : Path} :
    p ∈ (ops_of e).flatMap FileOp.touched ↔ p ∈ paths_of e := by
  obtain ⟨path, change⟩ := e
  rcases change with content | content | ⟨diff, _ | move_path, new_content⟩
  · simp [ops_of, paths_of, parent_dirs_touch_nothing, FileOp.touched]
  · simp [ops_of, paths_of, FileOp.touched]
  · simp [ops_of, paths_of, FileOp.touched]
  · simp [ops_of, paths_of, parent_dirs_touch_nothing, FileOp.touched]

/-- The log of the applier is the log of the operations of the changes. -/
theorem apply_changes_log {σ : Type} (fs : FileSystem σ) (s : σ × List FileOp)
    (order : List (Path × ApplyPatchFileChange)) :
    (apply_changes_from_apply_patch fs.logged order s).2 =
      (fs.logged.perform_all (order.flatMap ops_of) s).2 := by
  rw [← Io.erase_state, apply_changes_from_apply_patch, erase_apply_changes, Io.erase_state]

/-- A file system where every operation is done. -/
def obliging : FileSystem Unit where
  read_text_file _ := fun s => (.ok [], s)
  create_dir_all _ := fun s => (.ok (), s)
  write_text_file _ _ := fun s => (.ok (), s)
  remove_file _ := fun s => (.ok (), s)
  rename _ _ := fun s => (.ok (), s)

theorem obliging_log (ops log : List FileOp) :
    (obliging.logged.perform_all ops ((), log)).2.2 = log ++ ops := by
  induction ops generalizing log with
  | nil => simp [FileSystem.perform_all]
  | cons op ops ih =>
    have hop : obliging.logged.perform op ((), log) = (.ok (), (), log ++ [op]) := by
      cases op <;> rfl
    rw [FileSystem.perform_all, Io.bind_run_ok hop, ih]
    simp

/-- Every path that a change of the action names lies inside of the roots. -/
def NamesOnlyInside (platform : Platform) (action : ApplyPatchAction)
    (sandbox_policy : SandboxPolicy) (cwd : Path) : Prop :=
  ∀ e ∈ action.changes.entries, ∀ p ∈ paths_of e,
    Inside (sandbox_policy.get_writable_roots_with_cwd platform cwd) cwd p

/-- Whatever the applier touches is named by a change. -/
theorem touched_named {σ : Type} (fs : FileSystem σ) (s : σ)
    {order entries : List (Path × ApplyPatchFileChange)} (ho : order.Perm entries) {op : FileOp}
    (hop : op ∈ (apply_changes_from_apply_patch fs.logged order (s, [])).2.2) {p : Path}
    (hp : p ∈ op.touched) : ∃ e ∈ entries, p ∈ paths_of e := by
  rw [apply_changes_log] at hop
  rcases fs.mem_log hop with hnil | hmem
  · cases hnil
  · obtain ⟨e, he, hope⟩ := List.mem_flatMap.mp hmem
    exact ⟨e, ho.mem_iff.mp he, mem_touched_iff.mp (List.mem_flatMap.mpr ⟨op, hope, hp⟩)⟩

/-- Whatever a change names is touched where every operation is done. -/
theorem named_touched {entries : List (Path × ApplyPatchFileChange)}
    {e : Path × ApplyPatchFileChange} (he : e ∈ entries) {p : Path} (hp : p ∈ paths_of e) :
    ∃ op ∈ (apply_changes_from_apply_patch obliging.logged entries ((), [])).2.2,
      p ∈ op.touched := by
  rw [apply_changes_log, obliging_log, List.nil_append]
  obtain ⟨op, hop, hpt⟩ := List.mem_flatMap.mp (mem_touched_iff.mpr hp)
  exact ⟨op, List.mem_flatMap.mpr ⟨e, he, hop⟩, hpt⟩

/-- The patches that a workspace policy approves without the user: there is a sandbox on the
platform, and the patch is constrained or the policy is to ask after a failure. -/
theorem auto_approved {platform : Platform} {action : ApplyPatchAction} {policy : AskForApproval}
    {roots : List Path} {network no_tmpdir no_slash_tmp git : Bool} {cwd : Path} :
    (∃ sandbox_type, assess_patch_safety platform action policy
        (.WorkspaceWrite roots network no_tmpdir no_slash_tmp git) cwd =
        .AutoApprove sandbox_type false) ↔
      action.is_empty = false ∧ policy ≠ .UnlessTrusted ∧
      (get_platform_sandbox platform).isSome ∧
      (is_write_patch_constrained_to_writable_paths platform action
          (.WorkspaceWrite roots network no_tmpdir no_slash_tmp git) cwd = true ∨
        policy = .OnFailure) := by
  unfold assess_patch_safety
  split_ifs <;> rcases get_platform_sandbox platform with _ | t <;> simp_all

/-- Under a workspace policy, the silent writes of a patch stay inside of the roots if and only
if the policy is not to ask after a failure, or the platform has no sandbox, or the patch names
no path outside. -/
theorem silent_writes_stay_inside_iff (platform : Platform) (action : ApplyPatchAction)
    (policy : AskForApproval) (writable_roots : List Path) (network_access exclude_tmpdir_env_var
      exclude_slash_tmp allow_git_writes : Bool) (cwd : Path) :
    SilentWritesStayInside platform action policy (.WorkspaceWrite writable_roots network_access
        exclude_tmpdir_env_var exclude_slash_tmp allow_git_writes) cwd ↔
      policy ≠ .OnFailure ∨ get_platform_sandbox platform = none ∨
        NamesOnlyInside platform action (.WorkspaceWrite writable_roots network_access
          exclude_tmpdir_env_var exclude_slash_tmp allow_git_writes) cwd := by
  constructor
  · intro h
    by_cases hpol : policy = .OnFailure
    · right
      rcases hbox : get_platform_sandbox platform with _ | t
      · exact .inl rfl
      · right
        by_cases hempty : action.is_empty = true
        · intro e he
          rw [ApplyPatchAction.is_empty, List.isEmpty_iff] at hempty
          rw [hempty] at he
          cases he
        · have hbox' : (get_platform_sandbox platform).isSome := by rw [hbox]; rfl
          intro e he p hp
          obtain ⟨op, hop, hpt⟩ := named_touched he hp
          refine h (auto_approved.mpr ?_) Unit obliging () action.changes.entries
            (List.Perm.refl _) op hop p hpt
          exact ⟨Bool.eq_false_iff.mpr hempty, by simp [hpol], hbox', .inr hpol⟩
    · exact .inl hpol
  · intro hcond happrove σ fs s order ho op hop p hp
    obtain ⟨-, -, hbox, hwhy⟩ := auto_approved.mp happrove
    have hnames : NamesOnlyInside platform action (.WorkspaceWrite writable_roots network_access
        exclude_tmpdir_env_var exclude_slash_tmp allow_git_writes) cwd := by
      rcases hwhy with hcon | hpol
      · intro e he q hq
        exact inside_of_writable (List.all_eq_true.mp (List.all_eq_true.mp hcon e he) q hq)
      · rcases hcond with hne | hnone | hnames
        · exact absurd hpol hne
        · rw [hnone] at hbox
          cases hbox
        · exact hnames
    obtain ⟨e, he, hpe⟩ := touched_named fs s ho hop hp
    exact hnames e he p hpe

/-! ## A patch outside of the workspace -/

/-- A Linux machine with a `/tmp`, and `TMPDIR` not set. -/
def linux_machine : Platform where
  os := .Linux
  is_dir p := p = Path.of_text "/tmp".toList
  tmpdir := none

/-- The action of a patch that adds a file to `/etc`, from `/w`. -/
def add_to_etc : ApplyPatchAction where
  changes := ⟨[(Path.of_text "/etc/a".toList, .Add "x\n".toList)], List.nodup_singleton _⟩
  patch := "*** Begin Patch\n*** Add File: /etc/a\n+x\n*** End Patch".toList
  cwd := Path.of_text "/w".toList

/-- To ask only after a failure approves a patch to `/etc`, and the applier writes it. -/
theorem on_failure_writes_to_etc :
    ¬ SilentWritesStayInside linux_machine add_to_etc .OnFailure
      (.WorkspaceWrite [] false false false true) (Path.of_text "/w".toList) := by
  intro h
  have hin := h ⟨.LinuxSeccomp, by decide +kernel⟩ Files plain (fun _ => none)
    add_to_etc.changes.entries (List.Perm.refl _)
    (.write_text_file (Path.of_text "/etc/a".toList) "x\n".toList) (by decide +kernel)
    (Path.of_text "/etc/a".toList) (by decide +kernel)
  exact absurd hin (by decide +kernel)

end Ecode.safety
