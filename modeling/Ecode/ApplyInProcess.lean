-- The applier of the agent itself (core/src/apply_patch.rs): it carries out the
-- verified changes in the order of a hash map, and reports how it went.
import Ecode.PatchApply

namespace Ecode.apply_patch

open updates

/-! ## The pure model -/

/-- The `anyhow::Error` of a change: an I/O error, alone or with its context. -/
inductive ApplyChangeError where
  | io (source : IoErr)
  | context (text : Text) (source : IoErr)
  deriving DecidableEq, Repr

section applier

variable {σ : Type} (fs : FileSystem σ)

/-- The `create_dir_all` of the parent of a path that has one with a name. -/
def create_parent_dirs (path : Path) : Io σ ApplyChangeError Unit :=
  match Path.parent path with
  | some parent =>
    if parent = [] then pure ()
    else (fs.create_dir_all parent).map_err
      (.context ("Failed to create parent directories for ".toList ++ Path.display path))
  | none => pure ()

/-- One turn of the loop of `apply_changes_from_apply_patch`. -/
def apply_change (affected : AffectedPaths) :
    Path × ApplyPatchFileChange → Io σ ApplyChangeError AffectedPaths
  | (path, .Add content) => do
    create_parent_dirs fs path
    (fs.write_text_file path content).map_err
      (.context ("Failed to write file ".toList ++ Path.display path))
    pure { affected with added := affected.added ++ [path] }
  | (path, .Delete _) => do
    (fs.remove_file path).map_err
      (.context ("Failed to delete file ".toList ++ Path.display path))
    pure { affected with deleted := affected.deleted ++ [path] }
  | (path, .Update _ (some move_path) new_content) => do
    create_parent_dirs fs move_path
    (fs.rename path move_path).map_err
      (.context ("Failed to rename file ".toList ++ Path.display path))
    (fs.write_text_file move_path new_content).map_err .io
    pure { affected with
      modified := affected.modified ++ [move_path], deleted := affected.deleted ++ [path] }
  | (path, .Update _ none new_content) => do
    (fs.write_text_file path new_content).map_err .io
    pure { affected with modified := affected.modified ++ [path] }

def apply_changes (affected : AffectedPaths) :
    List (Path × ApplyPatchFileChange) → Io σ ApplyChangeError AffectedPaths
  | [] => pure affected
  | entry :: entries => do
    let affected ← apply_change fs affected entry
    apply_changes affected entries

/-- `apply_changes_from_apply_patch`, when the map gives its entries in this order. -/
def apply_changes_from_apply_patch (order : List (Path × ApplyPatchFileChange)) :
    Io σ ApplyChangeError AffectedPaths :=
  apply_changes fs AffectedPaths.none order

/-- The error with its causes, `{err:#}`. -/
def ApplyChangeError.display : ApplyChangeError → Text
  | .io source => source
  | .context text source => text ++ ": ".toList ++ source

/-- `print_summary`, on a buffer that takes every write. -/
def print_summary (affected : AffectedPaths) (out : Text) : Text :=
  out ++ "Success. Updated the following files:\n".toList ++
    affected.added.flatMap (fun p => "A ".toList ++ Path.display p ++ "\n".toList) ++
    affected.modified.flatMap (fun p => "M ".toList ++ Path.display p ++ "\n".toList) ++
    affected.deleted.flatMap (fun p => "D ".toList ++ Path.display p ++ "\n".toList)

/-- What `apply_changes_from_apply_patch_and_report` gives back: its result, and the two
buffers it wrote to. -/
structure Report where
  result : Except IoErr Unit
  stdout : Text
  stderr : Text
  deriving DecidableEq

/-- `apply_changes_from_apply_patch_and_report` on two empty buffers. -/
def apply_changes_from_apply_patch_and_report (order : List (Path × ApplyPatchFileChange))
    (s : σ) : Report × σ :=
  match apply_changes_from_apply_patch fs order s with
  | (.ok affected, s') => (⟨.ok (), print_summary affected [], []⟩, s')
  | (.error err, s') => (⟨.ok (), [], err.display ++ "\n".toList⟩, s')

structure ApplyPatchRun where
  auto_approved : Bool
  stdout : Text
  stderr : Text
  success : Bool
  harness_summary_json : Option Text
  deriving DecidableEq

/-- The end of `apply_patch`, after the approval. -/
def apply_patch_run (auto_approved : Bool) (harness_summary_json : Option Text)
    (order : List (Path × ApplyPatchFileChange)) (s : σ) : ApplyPatchRun × σ :=
  let (report, s') := apply_changes_from_apply_patch_and_report fs order s
  ({ auto_approved, harness_summary_json, stdout := report.stdout, stderr := report.stderr
     success := report.result.isOk }, s')

end applier

/-! ## The file operations of a change -/

def parent_dirs_ops (path : Path) : List FileOp :=
  match Path.parent path with
  | some parent => if parent = [] then [] else [.create_dir_all parent]
  | none => []

/-- The file operations that a change needs, in their order. -/
def ops_of : Path × ApplyPatchFileChange → List FileOp
  | (path, .Add content) => parent_dirs_ops path ++ [.write_text_file path content]
  | (path, .Delete _) => [.remove_file path]
  | (path, .Update _ (some move_path) new_content) =>
    parent_dirs_ops move_path ++ [.rename path move_path, .write_text_file move_path new_content]
  | (path, .Update _ none new_content) => [.write_text_file path new_content]

section ops

variable {σ : Type} (fs : FileSystem σ)

theorem erase_create_parent_dirs (path : Path) :
    (create_parent_dirs fs path).erase = (fs.perform_all (parent_dirs_ops path)).erase := by
  unfold create_parent_dirs parent_dirs_ops
  rcases Path.parent path with _ | parent
  · rfl
  · by_cases hp : parent = []
    · simp [hp, FileSystem.perform_all]
    · simp [hp, FileSystem.perform]

/-- A change does its file operations, up to the first one that fails. -/
theorem erase_apply_change (affected : AffectedPaths) (entry : Path × ApplyPatchFileChange) :
    (apply_change fs affected entry).erase = (fs.perform_all (ops_of entry)).erase := by
  obtain ⟨path, change⟩ := entry
  rcases change with content | content | ⟨diff, _ | move_path, new_content⟩
  · simp only [apply_change, ops_of, FileSystem.erase_perform_all_append,
      FileSystem.erase_perform_one]
    rw [Io.erase_bind fun _ => Io.erase_bind_pure _ _, erase_create_parent_dirs, Io.erase_map_err]
    rfl
  · simp only [apply_change, ops_of, FileSystem.erase_perform_one, Io.erase_bind_pure,
      Io.erase_map_err]
    rfl
  · simp only [apply_change, ops_of, FileSystem.erase_perform_one, Io.erase_bind_pure,
      Io.erase_map_err]
    rfl
  · simp only [apply_change, ops_of, FileSystem.erase_perform_all_append]
    rw [Io.erase_bind fun _ => Io.erase_bind fun _ => Io.erase_bind_pure _ _,
      erase_create_parent_dirs, Io.erase_map_err, Io.erase_map_err, FileSystem.perform_all,
      Io.erase_bind fun _ => fs.erase_perform_one _]
    rfl

theorem erase_apply_changes (affected : AffectedPaths)
    (order : List (Path × ApplyPatchFileChange)) :
    (apply_changes fs affected order).erase = (fs.perform_all (order.flatMap ops_of)).erase := by
  induction order generalizing affected with
  | nil => rfl
  | cons entry order ih =>
    rw [apply_changes, Io.erase_bind fun _ => ih _, erase_apply_change, List.flatMap_cons,
      FileSystem.erase_perform_all_append]

/-- The applier ends well exactly when no file operation of the changes fails. -/
theorem apply_changes_ok {order : List (Path × ApplyPatchFileChange)} {s t : σ} :
    (∃ affected, apply_changes_from_apply_patch fs order s = (.ok affected, t)) ↔
      fs.perform_all (order.flatMap ops_of) s = (.ok (), t) := by
  rw [← Io.erase_ok, apply_changes_from_apply_patch, erase_apply_changes, Io.erase_ok]
  exact ⟨fun ⟨_, h⟩ => h, fun h => ⟨(), h⟩⟩

end ops

/-! ## The reported success -/

/-- The run of a patch is reported as a success exactly when it was one, if and only if no file
operation of its changes fails. The report drops every error, so its flag is always true. -/
theorem success_is_real_iff_no_operation_fails {σ : Type} (fs : FileSystem σ)
    (auto_approved : Bool) (harness_summary_json : Option Text)
    (order : List (Path × ApplyPatchFileChange)) (s : σ) :
    ((apply_patch_run fs auto_approved harness_summary_json order s).1.success = true ↔
        ∃ affected t, apply_changes_from_apply_patch fs order s = (.ok affected, t)) ↔
      ∃ t, fs.perform_all (order.flatMap ops_of) s = (.ok (), t) := by
  have hflag : (apply_patch_run fs auto_approved harness_summary_json order s).1.success = true := by
    unfold apply_patch_run apply_changes_from_apply_patch_and_report
    rcases apply_changes_from_apply_patch fs order s with ⟨r, t⟩
    rcases r with e | a <;> rfl
  simp only [hflag, true_iff]
  rw [exists_comm]
  exact exists_congr fun t => apply_changes_ok fs

/-- A deletion of a file that is not there fails, and is reported as a success. -/
theorem failed_delete_is_reported_as_success :
    (apply_patch_run plain true none [(Path.of_text "/w/a".toList, .Delete [])]
        (fun _ => none)).1.success = true ∧
      ¬ ∃ affected t, apply_changes_from_apply_patch plain
        [(Path.of_text "/w/a".toList, .Delete [])] (fun _ => none) = (.ok affected, t) := by
  refine ⟨by decide +kernel, ?_⟩
  rintro ⟨affected, t, h⟩
  have hfail : (apply_changes_from_apply_patch plain [(Path.of_text "/w/a".toList, .Delete [])]
    (fun _ => none)).1.isOk = false := by decide +kernel
  rw [h] at hfail
  cases hfail

/-! ## The order of the changes -/

/-- A change that removes or moves its path finds a file there. -/
def Present (T : Files) : Path × ApplyPatchFileChange → Prop
  | (path, .Delete _) => (T path).isSome
  | (path, .Update _ (some _) _) => (T path).isSome
  | _ => True

instance (T : Files) (e : Path × ApplyPatchFileChange) : Decidable (Present T e) :=
  match e with
  | (_, .Add _) => inferInstanceAs (Decidable True)
  | (path, .Delete _) => inferInstanceAs (Decidable ((T path).isSome = true))
  | (path, .Update _ (some _) _) => inferInstanceAs (Decidable ((T path).isSome = true))
  | (_, .Update _ none _) => inferInstanceAs (Decidable True)

theorem create_parent_dirs_plain (path : Path) (T : Files) :
    create_parent_dirs plain path T = (.ok (), T) := by
  unfold create_parent_dirs
  rcases Path.parent path with _ | parent
  · rfl
  · by_cases hp : parent = []
    · simp [hp]
    · simp [hp, Io.map_err]

theorem apply_change_plain {T : Files} (affected : AffectedPaths)
    {e : Path × ApplyPatchFileChange} (hp : Present T e) :
    ∃ a, apply_change plain affected e T = (.ok a, overlay T (promised e)) := by
  obtain ⟨path, change⟩ := e
  rcases change with content | content | ⟨diff, _ | move_path, new_content⟩
  · exact ⟨_, by rw [apply_change, Io.bind_run_ok (create_parent_dirs_plain _ _)]; rfl⟩
  · obtain ⟨t, ht⟩ := Option.isSome_iff_exists.mp hp
    have hremove : (plain.remove_file path).map_err
        (ApplyChangeError.context ("Failed to delete file ".toList ++ Path.display path)) T =
        (.ok (), Function.update T path none) := by
      rw [Io.map_err_ok, plain_remove ht]
    exact ⟨_, by rw [apply_change, Io.bind_run_ok hremove]; rfl⟩
  · exact ⟨_, rfl⟩
  · obtain ⟨t, ht⟩ := Option.isSome_iff_exists.mp hp
    have hrename : (plain.rename path move_path).map_err
        (ApplyChangeError.context ("Failed to rename file ".toList ++ Path.display path)) T =
        (.ok (), Function.update (Function.update T path none) move_path (some t)) := by
      rw [Io.map_err_ok, plain_rename ht]
    refine ⟨{ affected with
      modified := affected.modified ++ [move_path], deleted := affected.deleted ++ [path] }, ?_⟩
    rw [apply_change, Io.bind_run_ok (create_parent_dirs_plain _ _), Io.bind_run_ok hrename,
      Io.bind_run_ok (Io.map_err_ok.mpr (plain_write _ _ _)), Io.pure_run, Function.update_idem]
    congr 1
    by_cases hd : move_path = path
    · simp [promised, hd]
    · simp [promised, hd, Function.update_comm hd]

/-- A change takes no file away from the path of another change. -/
theorem present_after {T : Files} {e f : Path × ApplyPatchFileChange} (hne : f.1 ≠ e.1)
    (hf : Present T f) : Present (overlay T (promised e)) f := by
  have hkeep : (T f.1).isSome → (overlay T (promised e) f.1).isSome := by
    intro hs
    obtain ⟨k, change⟩ := e
    rcases change with content | content | ⟨diff, _ | move_path, new_content⟩
    · simpa [promised, Function.update_of_ne hne] using hs
    · simpa [promised, Function.update_of_ne hne] using hs
    · simpa [promised, Function.update_of_ne hne] using hs
    · by_cases hd : move_path = k
      · simpa [promised, hd, Function.update_of_ne hne] using hs
      · by_cases hfd : f.1 = move_path
        · simp [promised, hd, hfd]
        · simpa [promised, hd, Function.update_of_ne hne, Function.update_of_ne hfd] using hs
  obtain ⟨k, change⟩ := f
  rcases change with content | content | ⟨diff, _ | move_path, new_content⟩
  · trivial
  · exact hkeep hf
  · trivial
  · exact hkeep hf

/-- On the plain files every order ends well, with what the changes promise, the later ones over
the earlier ones. -/
theorem apply_changes_plain {order : List (Path × ApplyPatchFileChange)}
    (hnd : (order.map Prod.fst).Nodup) {T : Files} (hp : ∀ e ∈ order, Present T e)
    (affected : AffectedPaths) :
    ∃ a, apply_changes plain affected order T = (.ok a, overlay T (order.flatMap promised)) := by
  induction order generalizing T affected with
  | nil => exact ⟨affected, rfl⟩
  | cons e order ih =>
    obtain ⟨b, hb⟩ := apply_change_plain affected (hp e List.mem_cons_self)
    rw [List.map_cons, List.nodup_cons] at hnd
    have hp' : ∀ f ∈ order, Present (overlay T (promised e)) f := fun f hf =>
      present_after (fun heq => hnd.1 (heq ▸ List.mem_map_of_mem hf))
        (hp f (List.mem_cons_of_mem _ hf))
    obtain ⟨a, ha⟩ := ih hnd.2 hp' b
    refine ⟨a, ?_⟩
    rw [apply_changes, Io.bind_run_ok hb, ha, List.flatMap_cons, overlay_append]

theorem Verified.present {pkgs : Packages} {cwd : Path} {S : Files} {h : Hunk}
    {e : Path × ApplyPatchFileChange} (hv : Verified pkgs cwd S h e) : Present S e := by
  cases hv with
  | add path contents => trivial
  | delete path hS => simp [Present, hS]
  | update path move_path chunks hS hn => rcases move_path with _ | dest <;> simp [Present, hS]

theorem verified_present {pkgs : Packages} {cwd : Path} {S : Files} {hunks : List Hunk}
    {entries : List (Path × ApplyPatchFileChange)}
    (hv : List.Forall₂ (Verified pkgs cwd S) hunks entries) : ∀ e ∈ entries, Present S e := by
  induction hv with
  | nil => simp
  | cons hv _ ih => exact List.forall_mem_cons.mpr ⟨hv.present, ih⟩

theorem promised_consistent (e : Path × ApplyPatchFileChange) : Consistent (promised e) := by
  obtain ⟨k, change⟩ := e
  rcases change with content | content | ⟨diff, _ | move_path, new_content⟩
  · simp [promised, Consistent]
  · simp [promised, Consistent]
  · simp [promised, Consistent]
  · by_cases hd : move_path = k
    · simp [promised, Consistent, hd]
    · simp [promised, Consistent, hd, Ne.symm hd]

/-- Any two orders of the changes that both end well leave the same files. -/
def OrdersAgree (S : Files) (action : ApplyPatchAction) : Prop :=
  ∀ order order' : List (Path × ApplyPatchFileChange), order.Perm action.changes.entries →
    order'.Perm action.changes.entries → ∀ a a' U U',
    apply_changes_from_apply_patch plain order S = (.ok a, U) →
    apply_changes_from_apply_patch plain order' S = (.ok a', U') → U = U'

/-- The orders of an accepted action agree if and only if changes that name one path, as their
own or as a destination, promise one text there. -/
theorem orders_agree_iff_consistent (pkgs : Packages) (argv : List Text) (cwd : Path)
    (S T : Files) (action : ApplyPatchAction)
    (haccept : maybe_parse_apply_patch_verified plain pkgs argv cwd S = (.ok (.Body action), T)) :
    OrdersAgree S action ↔ Consistent (action.changes.entries.flatMap promised) := by
  obtain ⟨args, -, hv⟩ := verified_body haccept
  have hpresent : ∀ e ∈ action.changes.entries, Present S e := verified_present hv
  have hrun : ∀ order : List (Path × ApplyPatchFileChange), order.Perm action.changes.entries →
      ∃ a, apply_changes_from_apply_patch plain order S =
        (.ok a, overlay S (order.flatMap promised)) := fun order ho =>
    apply_changes_plain ((ho.map _).nodup_iff.mpr action.changes.nodup)
      (fun e he => hpresent e (ho.mem_iff.mp he)) _
  constructor
  · intro h
    obtain ⟨a0, h0⟩ := hrun _ (List.Perm.refl _)
    refine consistent_of_every_order S (overlay S (action.changes.entries.flatMap promised))
      (fun e _ => promised_consistent e) fun order ho => ?_
    obtain ⟨a, ha⟩ := hrun order ho
    exact h order _ ho (List.Perm.refl _) _ _ _ _ ha h0
  · intro hc order order' ho ho' a a' U U' h h'
    obtain ⟨b, hb⟩ := hrun order ho
    obtain ⟨b', hb'⟩ := hrun order' ho'
    obtain ⟨-, rfl⟩ := Prod.mk.inj (h.symm.trans hb)
    obtain ⟨-, rfl⟩ := Prod.mk.inj (h'.symm.trans hb')
    have hflat := (ho.trans ho'.symm).flatMap_right promised
    exact overlay_perm S (hc.perm (ho.symm.flatMap_right promised)) hflat

theorem orders_agree_on_one_update : OrdersAgree one_file (update_a_action none in_place_patch) :=
  (orders_agree_iff_consistent one_file_packages ["apply_patch".toList, in_place_patch]
    (Path.of_text "/w".toList) one_file one_file (update_a_action none in_place_patch)
    (update_a_accepted (by decide +kernel) (by decide +kernel))).mpr (by decide +kernel)

/-! ## Two moves onto one path -/

/-- The files with the one line `a` in `/w/a` and the one line `b` in `/w/b`. -/
def two_files : Files := fun p =>
  if p = Path.of_text "/w/a".toList then some "a\n".toList
  else if p = Path.of_text "/w/b".toList then some "b\n".toList
  else none

/-- The other packages, as they answer for the updates of `two_files`. -/
def two_files_packages : Packages where
  extract_apply_patch_from_bash _ := .error .CommandDidNotStartWithApplyPatch
  unified_diff original _ _ :=
    if original = "a\n".toList then "@@ -1 +1 @@\n-a\n+x\n".toList
    else "@@ -1 +1 @@\n-b\n+y\n".toList

def two_moves_patch : Text :=
  ("*** Begin Patch\n" ++
    "*** Update File: a\n*** Move to: c\n@@\n-a\n+x\n" ++
    "*** Update File: b\n*** Move to: c\n@@\n-b\n+y\n" ++
    "*** End Patch").toList

def move_a : Path × ApplyPatchFileChange :=
  (Path.of_text "/w/a".toList, .Update "@@ -1 +1 @@\n-a\n+x\n".toList
    (some (Path.of_text "/w/c".toList)) "x\n".toList)

def move_b : Path × ApplyPatchFileChange :=
  (Path.of_text "/w/b".toList, .Update "@@ -1 +1 @@\n-b\n+y\n".toList
    (some (Path.of_text "/w/c".toList)) "y\n".toList)

def two_moves_action : ApplyPatchAction where
  changes := ⟨[move_a, move_b], by decide +kernel⟩
  patch := two_moves_patch
  cwd := Path.of_text "/w".toList

def two_moves_hunks : List Hunk :=
  [.UpdateFile (Path.of_text "a".toList) (some (Path.of_text "c".toList))
      [⟨none, ["a".toList], ["x".toList], false⟩],
    .UpdateFile (Path.of_text "b".toList) (some (Path.of_text "c".toList))
      [⟨none, ["b".toList], ["y".toList], false⟩]]

theorem two_moves_accepted :
    maybe_parse_apply_patch_verified plain two_files_packages
      ["apply_patch".toList, two_moves_patch] (Path.of_text "/w".toList) two_files =
      (.ok (.Body two_moves_action), two_files) := by
  have hargs : maybe_parse_apply_patch two_files_packages ["apply_patch".toList, two_moves_patch] =
      .Body ⟨two_moves_patch, two_moves_hunks, none⟩ := by decide +kernel
  have ha : two_files (Path.join (Path.of_text "/w".toList) (Path.of_text "a".toList)) =
      some "a\n".toList := by decide +kernel
  have hb : two_files (Path.join (Path.of_text "/w".toList) (Path.of_text "b".toList)) =
      some "b\n".toList := by decide +kernel
  have hx : new_contents_of (Path.join (Path.of_text "/w".toList) (Path.of_text "a".toList))
      [⟨none, ["a".toList], ["x".toList], false⟩] "a\n".toList = .ok "x\n".toList := by
    decide +kernel
  have hy : new_contents_of (Path.join (Path.of_text "/w".toList) (Path.of_text "b".toList))
      [⟨none, ["b".toList], ["y".toList], false⟩] "b\n".toList = .ok "y\n".toList := by
    decide +kernel
  exact accepts_verified (by decide +kernel) rfl hargs
    (.cons (.update _ _ _ ha hx) (.cons (.update _ _ _ hb hy) .nil))

/-- Two accepted moves onto one path: the order of the map decides which text stays. -/
theorem two_moves_depend_on_the_order :
    ∃ action, maybe_parse_apply_patch_verified plain two_files_packages
        ["apply_patch".toList, two_moves_patch] (Path.of_text "/w".toList) two_files =
        (.ok (.Body action), two_files) ∧ ¬ OrdersAgree two_files action := by
  refine ⟨two_moves_action, two_moves_accepted, fun hagree => ?_⟩
  have hpresent : ∀ e ∈ two_moves_action.changes.entries, Present two_files e := by
    decide +kernel
  have hswap : [move_b, move_a].Perm two_moves_action.changes.entries := List.Perm.swap _ _ _
  obtain ⟨a, ha⟩ := apply_changes_plain two_moves_action.changes.nodup hpresent AffectedPaths.none
  obtain ⟨b, hb⟩ := apply_changes_plain ((hswap.map _).nodup_iff.mpr two_moves_action.changes.nodup)
    (fun e he => hpresent e (hswap.mem_iff.mp he)) AffectedPaths.none
  have heq := congrFun (hagree _ _ (List.Perm.refl _) hswap _ _ _ _ ha hb)
    (Path.of_text "/w/c".toList)
  exact absurd heq (by decide +kernel)

end Ecode.apply_patch
