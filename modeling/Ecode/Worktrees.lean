-- The worktrees of the agents (core/src/git_worktree.rs): where `setup_worktree` puts one, which
-- directory it takes instead, and in whose worktree it resets and cleans.
import Ecode.Paths
import Ecode.Runs

namespace Ecode.git_worktree

open runs

/-! ## The disk -/

/-- Something that was done for a git root, with the git root that the directory it was done in
belongs to. -/
structure Entry where
  git_root : Path
  owner : Option Path
  deriving DecidableEq

/-- The directories that exist, the worktrees with the git roots they were created for, and which
directories were returned and which `reset` and `clean` were run. -/
structure Disk where
  dirs : List Path
  worktrees : List (Path × Path)
  log : List Entry
  deriving DecidableEq

/-- What git does when it is called. -/
inductive Reply where
  | ok
  | failed (stderr : Text)
  | not_started (e : Text)
  deriving DecidableEq

structure Replies where
  create_dir_all : Option Text
  reset : Reply
  clean : Reply
  add : Reply
  prune : Reply
  remove : Reply
  retry : Reply
  now : Text

structure Call where
  git_root : Path
  branch_id : Text
  base_ref : Option Text
  replies : Replies

section

-- The home directory, and the directory that a path leads to.
variable (home : Path) (real : Path → Path)

namespace Disk

def has (path : Path) (d : Disk) : Bool := decide (real path ∈ d.dirs)

/-- A path and every directory above it. -/
def with_parents (path : Path) : List Path := path.inits.filter (· ≠ [])

def create_dir_all (path : Path) (d : Disk) : Disk :=
  { d with dirs := with_parents (real path) ++ d.dirs }

/-- The git root that the worktree at a path was created for. -/
def owner (path : Path) (d : Disk) : Option Path :=
  (d.worktrees.find? fun w => w.1 == real path).map Prod.snd

def note (git_root path : Path) (d : Disk) : Disk :=
  { d with log := d.log ++ [⟨git_root, d.owner real path⟩] }

/-- `git worktree add` in a git root: the directory is created when it does not exist. -/
def worktree_add (git_root path : Path) (reply : Reply) (d : Disk) : Reply × Disk :=
  match reply with
  | .ok =>
    if d.has real path then (.failed "already exists".toList, d)
    else
      (.ok, { d.create_dir_all real path with
        worktrees := (real path, git_root) :: d.worktrees })
  | reply => (reply, d)

/-- `git worktree remove --force` in a git root: only its own worktrees go. -/
def worktree_remove (git_root path : Path) (reply : Reply) (d : Disk) : Disk :=
  if reply = .ok ∧ d.owner real path = some git_root then
    { d with
      dirs := d.dirs.filter fun dir => !(real path).isPrefixOf dir
      worktrees := d.worktrees.filter fun w => w.1 != real path }
  else d

end Disk

/-! ## `setup_worktree` -/

def working_dir : Path :=
  Path.join (Path.join home [.Normal ".code".toList]) [.Normal "working".toList]

def repo_name (git_root : Path) : Text := (Path.file_name git_root).getD "repo".toList

def code_dir (git_root : Path) : Path :=
  Path.join (Path.join (working_dir home) (Path.of_text (repo_name git_root)))
    [.Normal "branches".toList]

def worktree_path (git_root : Path) (branch : Text) : Path :=
  Path.join (code_dir home git_root) (Path.of_text branch)

/-- The worktree that is returned. It is recorded in the directory of the sessions. -/
def returned (git_root path : Path) (branch : Text) (d : Disk) : Except Text (Path × Text) × Disk :=
  (.ok (path, branch),
    (d.create_dir_all real (Path.join (working_dir home) [.Normal "_session".toList])).note real
      git_root path)

/-- An existing worktree is reset to the base and cleaned. -/
def reset_existing (git_root path : Path) (branch : Text) (r : Replies) (d : Disk) :
    Except Text (Path × Text) × Disk :=
  match r.reset with
  | .not_started e => (.error ("Failed to reset existing worktree: ".toList ++ e), d)
  | .failed stderr =>
    (.error ("Failed to reset existing worktree: ".toList ++ stderr), d.note real git_root path)
  | .ok =>
    let d := d.note real git_root path
    match r.clean with
    | .not_started e => (.error ("Failed to clean existing worktree: ".toList ++ e), d)
    | .failed stderr =>
      (.error ("Failed to clean existing worktree: ".toList ++ stderr), d.note real git_root path)
    | .ok => returned home real git_root path branch (d.note real git_root path)

/-- The second attempt, where the messages say what it follows. -/
def retry_add (git_root path : Path) (branch : Text) (not_started failed : String) (r : Replies)
    (d : Disk) : Except Text (Path × Text) × Disk :=
  match d.worktree_add real git_root path r.retry with
  | (.not_started e, d) => (.error (not_started.toList ++ e), d)
  | (.failed stderr, d) => (.error (failed.toList ++ stderr), d)
  | (.ok, d) => returned home real git_root path branch d

/-- What follows a failed `git worktree add`. -/
def recover (git_root : Path) (branch_id : Text) (path : Path) (stderr : Text) (r : Replies)
    (d : Disk) : Except Text (Path × Text) × Disk :=
  if !d.has real path && (Text.contains stderr "already registered".toList ||
      Text.contains stderr "already used by".toList) then
    match r.prune with
    | .not_started e => (.error ("Failed to prune git worktrees: ".toList ++ e), d)
    | .failed stderr => (.error ("Failed to prune git worktrees: ".toList ++ stderr), d)
    | .ok => retry_add home real git_root path branch_id
        "Failed to create git worktree after prune: " "Failed to create worktree after prune: " r d
  else if Text.contains stderr "already exists".toList then
    let branch := branch_id ++ ['-'] ++ r.now
    let path := worktree_path home git_root branch
    let d := if d.has real path then d.worktree_remove real git_root path r.remove else d
    retry_add home real git_root path branch "Failed to create git worktree (retry): "
      "Failed to create worktree: " r d
  else (.error ("Failed to create worktree: ".toList ++ stderr), d)

/-- An existing directory is reset to the base or, without one, taken as it is. -/
def setup_worktree (call : Call) (d : Disk) : Except Text (Path × Text) × Disk :=
  let git_root := call.git_root
  let r := call.replies
  match r.create_dir_all with
  | some e => (.error ("Failed to create .code/branches directory: ".toList ++ e), d)
  | none =>
    let d := d.create_dir_all real (code_dir home git_root)
    let path := worktree_path home git_root call.branch_id
    if d.has real path then
      match call.base_ref with
      | some _ => reset_existing home real git_root path call.branch_id r d
      | none => returned home real git_root path call.branch_id d
    else
      match d.worktree_add real git_root path r.add with
      | (.not_started e, d) => (.error ("Failed to create git worktree: ".toList ++ e), d)
      | (.failed stderr, d) => recover home real git_root call.branch_id path stderr r d
      | (.ok, d) => returned home real git_root path call.branch_id d

/-! ## Runs -/

def step (d : Disk) (call : Call) : Option Disk := some (setup_worktree home real call d).2

end

/-- Every directory that was returned for a git root, or reset or cleaned for it, is a worktree that
was created for it. -/
def Unmixed (d : Disk) : Prop := ∀ e ∈ d.log, e.owner = some e.git_root

/-- The directory that the call names does not exist, or was created for its git root. -/
def FindsItsOwn (home : Path) (real : Path → Path) (d : Disk) (call : Call) : Prop :=
  let path := worktree_path home call.git_root call.branch_id
  (d.create_dir_all real (code_dir home call.git_root)).has real path = true →
    d.owner real path = some call.git_root

instance (home : Path) (real : Path → Path) (d : Disk) (call : Call) :
    Decidable (FindsItsOwn home real d call) :=
  inferInstanceAs (Decidable (_ → _))

/-! ## What a call keeps -/

section

variable {home : Path} {real : Path → Path} {git_root path : Path} {d : Disk}

theorem unmixed_note_iff :
    Unmixed (d.note real git_root path) ↔ Unmixed d ∧ d.owner real path = some git_root := by
  unfold Unmixed Disk.note
  dsimp only
  rw [List.forall_mem_append]
  simp

variable (real git_root path d) in
/-- A directory is created for its git root, and nothing is used. -/
theorem worktree_add_spec (reply : Reply) :
    (d.worktree_add real git_root path reply).2.log = d.log ∧
      ((d.worktree_add real git_root path reply).1 = .ok →
        (d.worktree_add real git_root path reply).2.owner real path = some git_root) := by
  unfold Disk.worktree_add
  split
  · split_ifs
    · exact ⟨rfl, fun h => by cases h⟩
    · exact ⟨rfl, fun _ => by simp [Disk.owner]⟩
  · next hreply => exact ⟨rfl, fun h => absurd h hreply⟩

theorem worktree_remove_log (reply : Reply) :
    (d.worktree_remove real git_root path reply).log = d.log := by
  unfold Disk.worktree_remove
  split_ifs <;> rfl

theorem unmixed_of_log {d' : Disk} (h : Unmixed d) (hlog : d'.log = d.log) : Unmixed d' := by
  unfold Unmixed
  rwa [hlog]

theorem unmixed_returned_iff (branch : Text) :
    Unmixed (returned home real git_root path branch d).2 ↔
      Unmixed d ∧ d.owner real path = some git_root :=
  unmixed_note_iff

theorem Unmixed.retry_add (h : Unmixed d) (branch : Text) (not_started failed : String)
    (r : Replies) :
    Unmixed (retry_add home real git_root path branch not_started failed r d).2 := by
  obtain ⟨hlog, howner⟩ := worktree_add_spec real git_root path d r.retry
  unfold git_worktree.retry_add
  generalize d.worktree_add real git_root path r.retry = added at hlog howner
  obtain ⟨reply, d'⟩ := added
  have hd' : Unmixed d' := unmixed_of_log h hlog
  cases reply with
  | not_started e => exact hd'
  | failed stderr => exact hd'
  | ok => exact (unmixed_returned_iff branch).mpr ⟨hd', howner rfl⟩

theorem Unmixed.recover (h : Unmixed d) (branch_id stderr : Text) (r : Replies) :
    Unmixed (recover home real git_root branch_id path stderr r d).2 := by
  unfold git_worktree.recover
  dsimp only
  split_ifs
  · split
    · exact h
    · exact h
    · exact h.retry_add _ _ _ r
  · exact Unmixed.retry_add (unmixed_of_log h (worktree_remove_log _)) _ _ _ r
  · exact h.retry_add _ _ _ r
  · exact h

/-- Resetting an existing directory uses it, and nothing else. -/
theorem unmixed_reset_existing (branch : Text) (r : Replies) (h : Unmixed d)
    (howner : d.owner real path = some git_root) :
    Unmixed (reset_existing home real git_root path branch r d).2 := by
  have hreset := unmixed_note_iff.mpr ⟨h, howner⟩
  unfold reset_existing
  split
  · exact h
  · exact hreset
  · dsimp only
    split
    · exact hreset
    · exact unmixed_note_iff.mpr ⟨hreset, howner⟩
    · exact (unmixed_returned_iff branch).mpr ⟨unmixed_note_iff.mpr ⟨hreset, howner⟩, howner⟩

/-- A call that finds its own directory, or none, uses a worktree of its git root. -/
theorem Unmixed.setup_worktree (h : Unmixed d) {call : Call}
    (hown : FindsItsOwn home real d call) : Unmixed (setup_worktree home real call d).2 := by
  unfold git_worktree.setup_worktree
  dsimp only
  split
  · exact h
  · split_ifs with hhas
    · have howner := hown hhas
      split
      · exact unmixed_reset_existing _ _ h howner
      · exact (unmixed_returned_iff _).mpr ⟨h, howner⟩
    · have hcreated : Unmixed (d.create_dir_all real (code_dir home call.git_root)) := h
      generalize d.create_dir_all real (code_dir home call.git_root) = created at hcreated
      obtain ⟨hlog, howner⟩ := worktree_add_spec real call.git_root
        (worktree_path home call.git_root call.branch_id) created call.replies.add
      generalize created.worktree_add real call.git_root _ call.replies.add = added at hlog howner
      obtain ⟨reply, d'⟩ := added
      have hd' : Unmixed d' := unmixed_of_log hcreated hlog
      cases reply with
      | not_started e => exact hd'
      | failed stderr => exact hd'.recover _ _ _
      | ok => exact (unmixed_returned_iff _).mpr ⟨hd', howner rfl⟩

/-- A call that finds a directory that is not its own takes or resets it. -/
theorem mixed_of_not_own {call : Call} (hcreate : call.replies.create_dir_all = none)
    (hreset : ∀ e, call.replies.reset ≠ .not_started e)
    (hnot : ¬FindsItsOwn home real d call) : ¬Unmixed (setup_worktree home real call d).2 := by
  unfold FindsItsOwn at hnot
  dsimp only at hnot
  rw [Classical.not_imp] at hnot
  obtain ⟨hhas, howner⟩ := hnot
  intro h
  unfold setup_worktree at h
  dsimp only at h
  rw [hcreate] at h
  dsimp only at h
  rw [if_pos hhas] at h
  split at h
  · unfold reset_existing at h
    split at h
    · next e hnot_started => exact hreset e hnot_started
    · exact howner (unmixed_note_iff.mp h).2
    · dsimp only at h
      split at h
      · exact howner (unmixed_note_iff.mp h).2
      · exact howner (unmixed_note_iff.mp h).2
      · exact howner ((unmixed_returned_iff _).mp h).2
  · exact howner ((unmixed_returned_iff _).mp h).2

end

/-- In every run in which each call finds its own directory or none, whatever git answers, the
worktrees of different git roots never mix. -/
theorem worktrees_never_mix (home : Path) (real : Path → Path) (dirs : List Path) {d : Disk}
    (h : Reached (step home real) ⟨dirs, [], []⟩ (FindsItsOwn home real) d) : Unmixed d := by
  refine h.invariant (fun e he => absurd he List.not_mem_nil) ?_
  intro d call d' hunmixed hown hstep
  obtain rfl := Option.some.inj hstep
  exact hunmixed.setup_worktree hown

/-! ## Git roots with different names -/

/-- The names of the git root and of the branch are one component each, and no other git root has
the name: `known` gives the git root of a name. -/
structure Plain (known : Text → Path) (call : Call) : Prop where
  name : Path.of_text (repo_name call.git_root) = [.Normal (repo_name call.git_root)]
  known : known (repo_name call.git_root) = call.git_root
  branch : ∃ b, Path.of_text call.branch_id = [.Normal b]
  retry : ∃ b, Path.of_text (call.branch_id ++ ['-'] ++ call.replies.now) = [.Normal b]

section

variable {home : Path} {known : Text → Path} {d : Disk} {git_root path : Path}

/-- A worktree of the git root, in the directory of its name. -/
def PlacedFor (home : Path) (known : Text → Path) (git_root path : Path) : Prop :=
  known (repo_name git_root) = git_root ∧ ∃ b, path = working_dir home ++
    [.Normal (repo_name git_root), .Normal "branches".toList, .Normal b]

/-- Below the working directory there are only worktrees of the git roots whose name they are
under. -/
structure Separate (home : Path) (known : Text → Path) (d : Disk) : Prop where
  created : ∀ dir ∈ d.dirs, working_dir home <+: dir → (working_dir home).length + 2 < dir.length →
    ∃ git_root, (dir, git_root) ∈ d.worktrees
  placed : ∀ w ∈ d.worktrees, PlacedFor home known w.2 w.1

theorem join_normal {base : Path} (h : base ≠ []) (name : Text) :
    Path.join base [.Normal name] = base ++ [.Normal name] := by
  cases base with
  | nil => exact absurd rfl h
  | cons c base => rfl

theorem working_dir_ne_nil (home : Path) : working_dir home ≠ [] := by
  cases home with
  | nil => simp [working_dir, Path.join]
  | cons c home => simp [working_dir, Path.join]

theorem code_dir_eq {call : Call} (hplain : Plain known call) :
    code_dir home call.git_root = working_dir home ++
      [.Normal (repo_name call.git_root), .Normal "branches".toList] := by
  unfold code_dir
  rw [hplain.name, join_normal (working_dir_ne_nil home), join_normal (by simp), List.append_assoc]
  rfl

variable (home) in
theorem worktree_path_placed {call : Call} (hplain : Plain known call) {branch : Text}
    (hbranch : ∃ b, Path.of_text branch = [.Normal b]) :
    PlacedFor home known call.git_root (worktree_path home call.git_root branch) := by
  obtain ⟨b, hb⟩ := hbranch
  refine ⟨hplain.known, b, ?_⟩
  unfold worktree_path
  rw [hb, code_dir_eq hplain, join_normal (by simp), List.append_assoc]
  rfl

/-- A directory that is not below the branches of a name may be created. -/
theorem Separate.create_dir_all (h : Separate home known d)
    (hpath : path.length ≤ (working_dir home).length + 2) :
    Separate home known (d.create_dir_all id path) where
  created := by
    intro dir hdir hworking hlength
    rcases List.mem_append.mp hdir with hparent | hdir
    · have hprefixed := (List.mem_inits _ _).mp (List.mem_of_mem_filter hparent)
      have hle : dir.length ≤ path.length := hprefixed.length_le
      omega
    · exact h.created dir hdir hworking hlength
  placed := h.placed

theorem Separate.note (h : Separate home known d) : Separate home known (d.note id git_root path) :=
  ⟨h.created, h.placed⟩

theorem Separate.worktree_add (h : Separate home known d)
    (hplaced : PlacedFor home known git_root path) (reply : Reply) :
    Separate home known (d.worktree_add id git_root path reply).2 := by
  unfold Disk.worktree_add
  split
  · split_ifs
    · exact h
    · refine ⟨?_, List.forall_mem_cons.mpr ⟨hplaced, h.placed⟩⟩
      intro dir hdir hworking hlength
      rcases List.mem_append.mp hdir with hparent | hdir
      · have hprefixed := (List.mem_inits _ _).mp (List.mem_of_mem_filter hparent)
        obtain ⟨-, b, rfl⟩ := hplaced
        have hle : dir.length = _ := le_antisymm hprefixed.length_le (by
          simp only [List.length_append, List.length_cons, List.length_nil, id]
          omega)
        obtain rfl := hprefixed.eq_of_length hle
        exact ⟨git_root, List.mem_cons_self⟩
      · obtain ⟨root, hroot⟩ := h.created dir hdir hworking hlength
        exact ⟨root, List.mem_cons_of_mem _ hroot⟩
  · exact h

theorem Separate.worktree_remove (h : Separate home known d) (reply : Reply) :
    Separate home known (d.worktree_remove id git_root path reply) := by
  unfold Disk.worktree_remove
  split_ifs
  · refine ⟨?_, fun w hw => h.placed w (List.mem_of_mem_filter hw)⟩
    intro dir hdir hworking hlength
    obtain ⟨hdir, hkept⟩ := List.mem_filter.mp hdir
    obtain ⟨root, hroot⟩ := h.created dir hdir hworking hlength
    refine ⟨root, List.mem_filter.mpr ⟨hroot, ?_⟩⟩
    rw [bne_iff_ne]
    rintro rfl
    have hself : dir.isPrefixOf dir = true := List.isPrefixOf_iff_prefix.mpr List.prefix_rfl
    simp [hself] at hkept
  · exact h

theorem session_length :
    (Path.join (working_dir home) [.Normal "_session".toList]).length ≤
      (working_dir home).length + 2 := by
  rw [join_normal (working_dir_ne_nil home)]
  simp

theorem Separate.returned (h : Separate home known d) (branch : Text) :
    Separate home known (returned home id git_root path branch d).2 :=
  (h.create_dir_all session_length).note

theorem Separate.retry_add (h : Separate home known d)
    (hplaced : PlacedFor home known git_root path) (branch : Text) (not_started failed : String)
    (r : Replies) :
    Separate home known (retry_add home id git_root path branch not_started failed r d).2 := by
  have hadded := h.worktree_add hplaced r.retry
  unfold git_worktree.retry_add
  generalize d.worktree_add id git_root path r.retry = added at hadded
  obtain ⟨reply, d'⟩ := added
  cases reply with
  | not_started e => exact hadded
  | failed stderr => exact hadded
  | ok => exact hadded.returned branch

theorem Separate.setup_worktree (h : Separate home known d) {call : Call}
    (hplain : Plain known call) : Separate home known (setup_worktree home id call d).2 := by
  have hplaced := worktree_path_placed home hplain hplain.branch
  have hretry := worktree_path_placed home hplain hplain.retry
  unfold git_worktree.setup_worktree
  dsimp only
  split
  · exact h
  · have hcreated : Separate home known (d.create_dir_all id (code_dir home call.git_root)) := by
      apply h.create_dir_all
      rw [code_dir_eq hplain]
      simp
    generalize d.create_dir_all id (code_dir home call.git_root) = created at hcreated
    split_ifs
    · split
      · unfold reset_existing
        split
        · exact hcreated
        · exact hcreated.note
        · dsimp only
          split
          · exact hcreated.note
          · exact hcreated.note.note
          · exact hcreated.note.note.returned _
      · exact hcreated.returned _
    · have hadded := hcreated.worktree_add hplaced call.replies.add
      generalize created.worktree_add id call.git_root _ call.replies.add = added at hadded
      obtain ⟨reply, d'⟩ := added
      cases reply with
      | not_started e => exact hadded
      | ok => exact hadded.returned _
      | failed stderr =>
        unfold recover
        dsimp only
        split_ifs
        · split
          · exact hadded
          · exact hadded
          · exact hadded.retry_add hplaced _ _ _ _
        · exact (hadded.worktree_remove _).retry_add hretry _ _ _ _
        · exact hadded.retry_add hretry _ _ _ _
        · exact hadded

theorem Separate.finds_its_own (h : Separate home known d) {call : Call}
    (hplain : Plain known call) : FindsItsOwn home id d call := by
  obtain ⟨hknown, b, hpath⟩ := worktree_path_placed home hplain hplain.branch
  intro hhas
  have hmem := of_decide_eq_true hhas
  rw [hpath] at hmem ⊢
  have hbelow : ∃ root, (working_dir home ++ [Component.Normal (repo_name call.git_root),
      Component.Normal "branches".toList, Component.Normal b], root) ∈ d.worktrees := by
    rcases List.mem_append.mp hmem with hparent | hdir
    · have hprefixed := (List.mem_inits _ _).mp (List.mem_of_mem_filter hparent)
      have hle := hprefixed.length_le
      rw [id, code_dir_eq hplain] at hle
      simp at hle
    · exact h.created _ hdir (List.prefix_append _ _) (by simp)
  obtain ⟨root, hroot⟩ := hbelow
  have hfound : (d.worktrees.find? fun w => w.1 == id (working_dir home ++
      [Component.Normal (repo_name call.git_root), Component.Normal "branches".toList,
        Component.Normal b])).isSome :=
    List.find?_isSome.mpr ⟨_, hroot, by simp⟩
  obtain ⟨w, hw⟩ := Option.isSome_iff_exists.mp hfound
  unfold Disk.owner
  rw [hw, Option.map_some]
  have hsame := List.find?_some hw
  have hpath_w := beq_iff_eq.mp hsame
  rw [id] at hpath_w
  obtain ⟨hknown_w, b', hplaced_w⟩ := h.placed w (List.mem_of_find?_eq_some hw)
  rw [hplaced_w] at hpath_w
  have hname : repo_name w.2 = repo_name call.git_root := by
    simpa using congrArg List.head? (List.append_cancel_left hpath_w)
  rw [← hknown_w, hname, hknown]

end

/-- In every run for git roots with different names and with plain branch names, the worktrees of
different git roots never mix. -/
theorem different_names_never_mix (home : Path) (known : Text → Path) {dirs : List Path}
    (hempty : ∀ dir ∈ dirs, ¬working_dir home <+: dir) {d : Disk}
    (h : Reached (step home id) ⟨dirs, [], []⟩ (fun _ call => Plain known call) d) : Unmixed d := by
  have hboth : Separate home known d ∧ Unmixed d := by
    have hstart : Separate home known ⟨dirs, [], []⟩ ∧ Unmixed ⟨dirs, [], []⟩ :=
      ⟨⟨fun dir hdir hworking => absurd hworking (hempty dir hdir), fun w hw =>
        absurd hw List.not_mem_nil⟩, fun e he => absurd he List.not_mem_nil⟩
    refine h.invariant (I := fun d => Separate home known d ∧ Unmixed d) hstart ?_
    rintro d call d' ⟨hseparate, hunmixed⟩ hplain hstep
    obtain rfl := Option.some.inj hstep
    exact ⟨hseparate.setup_worktree hplain,
      hunmixed.setup_worktree (hseparate.finds_its_own hplain)⟩
  exact hboth.2

/-! Two calls for two git roots: with different names, and with one name. -/

def all_ok : Replies := ⟨none, .ok, .ok, .ok, .ok, .ok, .ok, "20250101-000000".toList⟩

def call (git_root branch_id : String) : Call :=
  ⟨Path.of_text git_root.toList, branch_id.toList, some "HEAD".toList, all_ok⟩

def home : Path := Path.of_text "/home/u".toList

theorem different_names_stay_apart :
    ∃ d, Reached (step home id) ⟨[home], [], []⟩ (FindsItsOwn home id) d ∧ d.log.length = 2 ∧
      Unmixed d := by
  have hrun : Reached (step home id) ⟨[home], [], []⟩ (FindsItsOwn home id) _ :=
    .step (a := call "/src/b" "fix") (.step (a := call "/src/a" "fix") .start
      (by decide +kernel) rfl) (by decide +kernel) rfl
  exact ⟨_, hrun, rfl, worktrees_never_mix home id [home] hrun⟩

theorem same_name_is_mixed :
    ∃ d, Reached (step home id) ⟨[home], [], []⟩ (fun _ _ => True) d ∧ ¬Unmixed d := by
  have hrun : Reached (step home id) ⟨[home], [], []⟩ (fun _ _ => True) _ :=
    .step (a := call "/mine/app" "fix") (.step (a := call "/work/app" "fix") .start trivial rfl)
      trivial rfl
  refine ⟨_, hrun, ?_⟩
  unfold Unmixed
  decide +kernel

end Ecode.git_worktree
