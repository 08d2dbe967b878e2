-- The guard of a /branch worktree (core/src/codex/streaming.rs): a patch is blocked
-- when it runs outside of the worktree or names a path outside of it.
import Ecode.PatchSafety

namespace Ecode.branch

open apply_patch safety

/-! ## The guard -/

/-- One component of `normalize_absolute`; above the root there is nothing. -/
def normalize_component (result : Path) : Component → Option Path
  | .RootDir => some (Path.push result .RootDir)
  | .CurDir => some result
  | .ParentDir => Path.parent result
  | .Normal name => some (Path.push result (.Normal name))

def normalize_absolute (path : Path) : Option Path :=
  if Path.is_absolute path then
    (path.foldlM normalize_component []).filter (fun result => result ≠ [])
  else none

def path_within (path base : Path) : Bool := Path.starts_with path base

/-- The check of one changed path, with the message that blocks the patch. -/
def guard_path (branch_root branch_norm path : Path) : Option Text :=
  match normalize_absolute path with
  | none => some ("apply_patch blocked: could not resolve patch target ".toList ++
      Path.display path ++ " inside worktree ".toList ++ Path.display branch_root ++
      ". Keep edits within the /branch directory.".toList)
  | some normalized =>
    if path_within normalized branch_norm then none
    else some ("apply_patch blocked: patch would modify ".toList ++ Path.display path ++
      " outside the active /branch worktree ".toList ++ Path.display branch_root ++
      ". Apply changes from within the worktree before `/merge`.".toList)

/-- `guard_apply_patch_outside_branch`, when the map gives its entries in this order. -/
def guard_apply_patch_outside_branch (branch_root : Path) (action : ApplyPatchAction)
    (order : List (Path × ApplyPatchFileChange)) : Option Text :=
  match normalize_absolute branch_root with
  | none => some ("apply_patch blocked: failed to resolve /branch worktree root ".toList ++
      Path.display branch_root ++
      ". Stay inside the worktree until you finish with `/merge`.".toList)
  | some branch_norm =>
    match normalize_absolute action.cwd with
    | none => some (("apply_patch blocked: the command resolved outside the /branch worktree " ++
        "(cwd ").toList ++ Path.display action.cwd ++ "). Stay inside ".toList ++
        Path.display branch_root ++ " until you finish with `/merge`.".toList)
    | some action_cwd_norm =>
      if path_within action_cwd_norm branch_norm then
        order.findSome? (fun e => guard_path branch_root branch_norm e.1)
      else some ("apply_patch blocked: the active /branch worktree is ".toList ++
        Path.display branch_root ++ " but the command tried to run from ".toList ++
        Path.display action.cwd ++
        ". Stay inside the worktree until you finish with `/merge`.".toList)

/-! ## What the guard confines -/

/-- A path lies under the worktree, both in their normal form. -/
def Within (branch_root path : Path) : Prop :=
  ∃ base ∈ normalize_absolute branch_root, ∃ normalized ∈ normalize_absolute path,
    path_within normalized base

/-- The working directory and all changed paths lie in the worktree. -/
def ChangesWithin (branch_root : Path) (action : ApplyPatchAction) : Prop :=
  Within branch_root action.cwd ∧ ∀ e ∈ action.changes.entries, Within branch_root e.1

/-- All destinations of moves lie in the worktree. -/
def MovesWithin (branch_root : Path) (action : ApplyPatchAction) : Prop :=
  ∀ path diff dest content, (path, .Update diff (some dest) content) ∈ action.changes.entries →
    Within branch_root dest

/-- When the guard lets the patch pass, the applier touches only paths in the worktree, on every
file system and in every order of the changes. -/
def GuardConfines (branch_root : Path) (action : ApplyPatchAction) : Prop :=
  ∀ keys : List (Path × ApplyPatchFileChange), keys.Perm action.changes.entries →
    guard_apply_patch_outside_branch branch_root action keys = none →
    ∀ (σ : Type) (fs : FileSystem σ) (s : σ) (order : List (Path × ApplyPatchFileChange)),
      order.Perm action.changes.entries →
      ∀ op ∈ (apply_changes_from_apply_patch fs.logged order (s, [])).2.2, ∀ p ∈ op.touched,
        Within branch_root p

theorem guard_path_none {branch_root branch_norm path : Path}
    (hroot : normalize_absolute branch_root = some branch_norm) :
    guard_path branch_root branch_norm path = none ↔ Within branch_root path := by
  unfold guard_path Within
  rw [hroot]
  cases hpath : normalize_absolute path with
  | none => simp
  | some normalized =>
    by_cases hin : path_within normalized branch_norm <;> simp [hin]

/-- The guard looks at the working directory and at the changed paths. -/
theorem guard_none_iff {branch_root : Path} {action : ApplyPatchAction}
    {keys : List (Path × ApplyPatchFileChange)} (hkeys : keys.Perm action.changes.entries) :
    guard_apply_patch_outside_branch branch_root action keys = none ↔
      ChangesWithin branch_root action := by
  unfold guard_apply_patch_outside_branch ChangesWithin
  cases hroot : normalize_absolute branch_root with
  | none => simp [Within, hroot]
  | some branch_norm =>
    have hpaths : keys.findSome? (fun e => guard_path branch_root branch_norm e.1) = none ↔
        ∀ e ∈ action.changes.entries, Within branch_root e.1 := by
      rw [List.findSome?_eq_none_iff]
      simp only [guard_path_none hroot, hkeys.mem_iff]
    cases hcwd : normalize_absolute action.cwd with
    | none => simp [Within, hroot, hcwd]
    | some cwd_norm =>
      have hwithin : Within branch_root action.cwd ↔ path_within cwd_norm branch_norm = true := by
        simp [Within, hroot, hcwd]
      by_cases hin : path_within cwd_norm branch_norm
      · simp only [hin, ↓reduceIte, hpaths, hwithin, true_and]
      · simp [hin, hwithin]

/-- The paths that a change names are the changed path and the destination of its move. -/
theorem within_paths {branch_root : Path} {action : ApplyPatchAction}
    (hchanges : ∀ e ∈ action.changes.entries, Within branch_root e.1)
    (hmoves : MovesWithin branch_root action) {e : Path × ApplyPatchFileChange}
    (he : e ∈ action.changes.entries) {p : Path} (hp : p ∈ paths_of e) : Within branch_root p := by
  obtain ⟨path, change⟩ := e
  have hpath := hchanges _ he
  rcases change with content | content | ⟨diff, _ | dest, content⟩
  · obtain rfl : p = path := by simpa [paths_of] using hp
    exact hpath
  · obtain rfl : p = path := by simpa [paths_of] using hp
    exact hpath
  · obtain rfl : p = path := by simpa [paths_of] using hp
    exact hpath
  · rcases (show p = path ∨ p = dest by simpa [paths_of] using hp) with rfl | rfl
    · exact hpath
    · exact hmoves path diff p content he

/-- The guard confines a patch just if it blocks it for a changed path or its working directory,
or no move leads out of the worktree. -/
theorem guard_confines_iff_no_move_leaves (branch_root : Path) (action : ApplyPatchAction) :
    GuardConfines branch_root action ↔
      (ChangesWithin branch_root action → MovesWithin branch_root action) := by
  constructor
  · intro hconfines hchanges path diff dest content he
    have hguard := (guard_none_iff (List.Perm.refl action.changes.entries)).mpr hchanges
    have hnamed : dest ∈ paths_of (path, .Update diff (some dest) content) := by simp [paths_of]
    obtain ⟨op, hop, hp⟩ := named_touched he hnamed
    exact hconfines _ (List.Perm.refl _) hguard Unit obliging () _ (List.Perm.refl _) op hop dest hp
  · intro hmoves keys hkeys hguard σ fs s order horder op hop p hp
    have hchanges := (guard_none_iff hkeys).mp hguard
    obtain ⟨e, he, hpe⟩ := touched_named fs s horder hop hp
    exact within_paths hchanges.2 (hmoves hchanges) he hpe

/-! ## A move out of the worktree -/

/-- A patch of `/b/a` that moves it to `/etc/a`. -/
def move_to_etc : ApplyPatchAction where
  changes := ⟨[(Path.of_text "/b/a".toList,
    .Update "@@\n-x\n+y\n".toList (some (Path.of_text "/b/../etc/a".toList)) "y\n".toList)],
    List.nodup_singleton _⟩
  patch := ("*** Begin Patch\n*** Update File: a\n*** Move to: ../etc/a\n@@\n-x\n+y\n" ++
    "*** End Patch").toList
  cwd := Path.of_text "/b".toList

/-- The guard does not look at the destination, and the applier writes it. -/
theorem guard_lets_a_move_leave_the_worktree :
    ¬ GuardConfines (Path.of_text "/b".toList) move_to_etc := by
  intro h
  have hin := h move_to_etc.changes.entries (List.Perm.refl _) (by decide +kernel) Unit obliging ()
    move_to_etc.changes.entries (List.Perm.refl _)
    (.write_text_file (Path.of_text "/b/../etc/a".toList) "y\n".toList) (by decide +kernel)
    (Path.of_text "/b/../etc/a".toList) (by decide +kernel)
  obtain ⟨base, hbase, normalized, hnormalized, hwithin⟩ := hin
  have hb : normalize_absolute (Path.of_text "/b".toList) =
      some [.RootDir, .Normal "b".toList] := by decide +kernel
  have hn : normalize_absolute (Path.of_text "/b/../etc/a".toList) =
      some [.RootDir, .Normal "etc".toList, .Normal "a".toList] := by decide +kernel
  rw [hb, Option.mem_some] at hbase
  rw [hn, Option.mem_some] at hnormalized
  subst hbase
  subst hnormalized
  exact absurd hwithin (by decide +kernel)

end Ecode.branch
