-- The verifier of patches (apply-patch/src/lib.rs): from the arguments of a
-- command and the files as they are, the changes that the patch would make.
import Ecode.PatchChunks

namespace Ecode.apply_patch

/-! ## The commands that hold a patch -/

def APPLY_PATCH_COMMANDS : List Text := ["apply_patch".toList, "applypatch".toList]

inductive ApplyPatchShell where
  | Unix
  | PowerShell
  | Cmd
  deriving DecidableEq, Repr

def classify_shell_name (shell : Text) : Option Text :=
  (Path.file_stem (Path.of_text shell)).map Text.to_ascii_lowercase

def classify_shell (shell flag : Text) : Option ApplyPatchShell :=
  (classify_shell_name shell).bind fun name =>
    if name ∈ ["bash".toList, "zsh".toList, "sh".toList] ∧ flag ∈ ["-lc".toList, "-c".toList] then
      some .Unix
    else if name ∈ ["pwsh".toList, "powershell".toList] ∧
        Text.eq_ignore_ascii_case flag "-command".toList then some .PowerShell
    else if name = "cmd".toList ∧ Text.eq_ignore_ascii_case flag "/c".toList then some .Cmd
    else none

def can_skip_flag (shell flag : Text) : Bool :=
  match classify_shell_name shell with
  | none => false
  | some name =>
    name ∈ ["pwsh".toList, "powershell".toList] &&
      Text.eq_ignore_ascii_case flag "-noprofile".toList

def parse_shell_script (argv : List Text) : Option (ApplyPatchShell × Text) :=
  match argv with
  | [shell, flag, script] => (classify_shell shell flag).map (·, script)
  | [shell, skip_flag, flag, script] =>
    if can_skip_flag shell skip_flag then (classify_shell shell flag).map (·, script) else none
  | _ => none

inductive ExtractHeredocError where
  | CommandDidNotStartWithApplyPatch
  | FailedToLoadBashGrammar
  | HeredocNotUtf8
  | FailedToParsePatchIntoAst
  | FailedToFindHeredocBody
  deriving DecidableEq, Repr

/-- The parts of other packages that the verifier calls: the query of the Bash grammar in
`extract_apply_patch_from_bash`, with the body of the heredoc and the directory of its `cd`,
and the unified diff of two texts with some lines of context. -/
structure Packages where
  extract_apply_patch_from_bash : Text → Except ExtractHeredocError (Text × Option Text)
  unified_diff : Text → Text → Nat → Text

inductive MaybeApplyPatch where
  | Body (args : ApplyPatchArgs)
  | ShellParseError (e : ExtractHeredocError)
  | PatchParseError (e : ParseError)
  | NotApplyPatch
  deriving DecidableEq, Repr

/-- A script with a heredoc, parsed. -/
def parse_heredoc_script (pkgs : Packages) (script : Text) : MaybeApplyPatch :=
  match pkgs.extract_apply_patch_from_bash script with
  | .ok (body, workdir) =>
    match parse_patch body with
    | .ok source => .Body { source with workdir }
    | .error e => .PatchParseError e
  | .error .CommandDidNotStartWithApplyPatch => .NotApplyPatch
  | .error e => .ShellParseError e

def maybe_parse_apply_patch (pkgs : Packages) (argv : List Text) : MaybeApplyPatch :=
  match argv with
  | [script] => parse_heredoc_script pkgs script
  | [cmd, body] =>
    if cmd ∈ APPLY_PATCH_COMMANDS then
      match parse_patch body with
      | .ok source => .Body source
      | .error e => .PatchParseError e
    else .NotApplyPatch
  | _ =>
    match parse_shell_script argv with
    | some (_, script) => parse_heredoc_script pkgs script
    | none => .NotApplyPatch

/-! ## The verified changes -/

inductive ApplyPatchFileChange where
  | Add (content : Text)
  | Delete (content : Text)
  | Update (unified_diff : Text) (move_path : Option Path) (new_content : Text)
  deriving DecidableEq, Repr

/-- `HashMap<PathBuf, ApplyPatchFileChange>`: at most one change for a path. The list has the
changes in the order of their insertion; an iteration of the map is any order of it. -/
structure ChangeMap where
  entries : List (Path × ApplyPatchFileChange)
  nodup : (entries.map Prod.fst).Nodup

def ChangeMap.empty : ChangeMap := ⟨[], List.nodup_nil⟩

def ChangeMap.contains_key (m : ChangeMap) (path : Path) : Prop := path ∈ m.entries.map Prod.fst

instance (m : ChangeMap) (path : Path) : Decidable (m.contains_key path) :=
  inferInstanceAs (Decidable (path ∈ m.entries.map Prod.fst))

/-- `HashMap::insert` at a path that has no change yet. -/
def ChangeMap.insert (m : ChangeMap) (path : Path) (change : ApplyPatchFileChange)
    (h : ¬ m.contains_key path) : ChangeMap :=
  ⟨m.entries ++ [(path, change)], by
    have hne : ∀ a ∈ m.entries.map Prod.fst, a ≠ path := fun a ha he => h (he ▸ ha)
    rw [List.map_append, List.nodup_append]
    exact ⟨m.nodup, List.nodup_singleton _, fun a ha b hb => by
      simp only [List.map_cons, List.map_nil, List.mem_singleton] at hb
      exact hb ▸ hne a ha⟩⟩

structure ApplyPatchAction where
  changes : ChangeMap
  patch : Text
  cwd : Path

/-- `ApplyPatchAction::is_empty`. -/
def ApplyPatchAction.is_empty (action : ApplyPatchAction) : Bool := action.changes.entries.isEmpty

inductive MaybeApplyPatchVerified where
  | Body (action : ApplyPatchAction)
  | ShellParseError (e : ExtractHeredocError)
  | CorrectnessError (e : ApplyPatchError)
  | NotApplyPatch

/-- The change of one hunk at its resolved path. -/
def change_of {σ : Type} (fs : FileSystem σ) (pkgs : Packages) (effective_cwd path : Path) :
    Hunk → Io σ (Fault ApplyPatchError) ApplyPatchFileChange
  | .AddFile _ contents => pure (.Add contents)
  | .DeleteFile _ => do
    let content ← (fs.read_text_file path).map_err fun e =>
      Fault.error (.IoError ("Failed to read ".toList ++ Path.display path) e)
    pure (.Delete content)
  | .UpdateFile _ move_path chunks => do
    let (original, contents) ← derive_new_contents_from_chunks fs path path chunks
    pure (.Update (pkgs.unified_diff original contents 1)
      (move_path.map (Path.join effective_cwd)) contents)

/-- The loop of `maybe_parse_apply_patch_verified`. -/
def verify_hunks {σ : Type} (fs : FileSystem σ) (pkgs : Packages) (effective_cwd : Path) :
    List Hunk → ChangeMap → Io σ (Fault ApplyPatchError) ChangeMap
  | [], changes => pure changes
  | hunk :: hunks, changes =>
    let path := hunk.resolve_path effective_cwd
    if h : changes.contains_key path then
      Io.fail (.error (.ParseError (.InvalidPatchError
        ("multiple operations target ".toList ++ Path.display path))))
    else do
      let change ← change_of fs pkgs effective_cwd path hunk
      verify_hunks fs pkgs effective_cwd hunks (changes.insert path change h)

/-- The directory that the paths of a patch start from. -/
def effective_cwd_of (workdir : Option Text) (cwd : Path) : Path :=
  match workdir with
  | none => cwd
  | some dir => Path.join cwd (Path.of_text dir)

/-- `parse_patch(..).is_ok()`. -/
def is_patch (t : Text) : Bool := (parse_patch t).toOption.isSome

/-- The check for a heredoc among the arguments of a direct call. -/
def is_malformed_heredoc (argv : List Text) : Bool :=
  argv.head?.any (· ∈ APPLY_PATCH_COMMANDS) &&
    argv.tail.any fun arg => Text.starts_with (Text.trim_start arg) "<<".toList

/-- The check for a patch that no `apply_patch` stands before. -/
def is_implicit (argv : List Text) : Bool :=
  (argv.length = 1 && is_patch (argv.headD [])) ||
    (parse_shell_script argv).any fun p => is_patch p.2

/-- `maybe_parse_apply_patch_verified`. The one error of the computation is a panic. -/
def maybe_parse_apply_patch_verified {σ : Type} (fs : FileSystem σ) (pkgs : Packages)
    (argv : List Text) (cwd : Path) : Io σ (Fault Empty) MaybeApplyPatchVerified :=
  if is_malformed_heredoc argv then pure (.CorrectnessError .MalformedHeredocInvocation)
  else if is_implicit argv then pure (.CorrectnessError .ImplicitInvocation)
  else match maybe_parse_apply_patch pkgs argv with
    | .Body args => fun s =>
      let effective_cwd := effective_cwd_of args.workdir cwd
      match verify_hunks fs pkgs effective_cwd args.hunks ChangeMap.empty s with
      | (.ok changes, s') => (.ok (.Body ⟨changes, args.patch, effective_cwd⟩), s')
      | (.error (.error e), s') => (.ok (.CorrectnessError e), s')
      | (.error .panic, s') => (.error .panic, s')
    | .ShellParseError e => pure (.ShellParseError e)
    | .PatchParseError e => pure (.CorrectnessError (.ParseError e))
    | .NotApplyPatch => pure .NotApplyPatch

/-! ## What an accepted patch is -/

/-- A change is what verification makes of a hunk over the files `S`. -/
inductive Verified (pkgs : Packages) (cwd : Path) (S : Files) : Hunk → Path × ApplyPatchFileChange → Prop
  | add (path : Path) (contents : Text) :
      Verified pkgs cwd S (.AddFile path contents) (Path.join cwd path, .Add contents)
  | delete (path : Path) {content : Text} : S (Path.join cwd path) = some content →
      Verified pkgs cwd S (.DeleteFile path) (Path.join cwd path, .Delete content)
  | update (path : Path) (move_path : Option Path) (chunks : List UpdateFileChunk)
      {original new_content : Text} : S (Path.join cwd path) = some original →
      new_contents_of (Path.join cwd path) chunks original = .ok new_content →
      Verified pkgs cwd S (.UpdateFile path move_path chunks)
        (Path.join cwd path, .Update (pkgs.unified_diff original new_content 1)
          (move_path.map (Path.join cwd)) new_content)

theorem Verified.key {pkgs : Packages} {cwd : Path} {S : Files} {h : Hunk}
    {e : Path × ApplyPatchFileChange} (hv : Verified pkgs cwd S h e) : e.1 = h.resolve_path cwd := by
  cases hv <;> rfl

theorem derive_plain_ok {S T : Files} {file path : Path} {chunks : List UpdateFileChunk}
    {r : Text × Text}
    (h : derive_new_contents_from_chunks plain file path chunks S = (.ok r, T)) :
    T = S ∧ S file = some r.1 ∧ new_contents_of path chunks r.1 = .ok r.2 := by
  unfold derive_new_contents_from_chunks at h
  obtain ⟨original, U, hread, h⟩ := Io.bind_ok.mp h
  obtain ⟨new, W, hnew, h⟩ := Io.bind_ok.mp h
  rw [Io.map_err_ok] at hread
  rcases hS : S file with _ | t
  · rw [plain_read_none hS] at hread
    simp at hread
  · rw [plain_read hS] at hread
    obtain ⟨rfl, rfl⟩ : t = original ∧ S = U := by simpa using hread
    rcases hc : new_contents_of path chunks t with e | n
    · simp [hc, Io.ofExcept] at hnew
    · obtain ⟨rfl, rfl⟩ : n = new ∧ S = W := by simpa [hc, Io.ofExcept] using hnew
      obtain ⟨rfl, rfl⟩ : (t, n) = r ∧ S = T := by simpa using h
      exact ⟨rfl, rfl, hc⟩

theorem change_of_ok {pkgs : Packages} {cwd : Path} {S T : Files} {h : Hunk}
    {c : ApplyPatchFileChange}
    (hc : change_of plain pkgs cwd (h.resolve_path cwd) h S = (.ok c, T)) :
    T = S ∧ Verified pkgs cwd S h (h.resolve_path cwd, c) := by
  cases h with
  | AddFile path contents =>
    obtain ⟨rfl, rfl⟩ : ApplyPatchFileChange.Add contents = c ∧ S = T := by
      simpa [change_of] using hc
    exact ⟨rfl, .add path contents⟩
  | DeleteFile path =>
    obtain ⟨content, U, hread, hc⟩ := Io.bind_ok.mp hc
    rw [Io.map_err_ok] at hread
    rcases hS : S ((Hunk.DeleteFile path).resolve_path cwd) with _ | t
    · rw [plain_read_none hS] at hread
      simp at hread
    · rw [plain_read hS] at hread
      obtain ⟨rfl, rfl⟩ : t = content ∧ S = U := by simpa using hread
      obtain ⟨rfl, rfl⟩ : ApplyPatchFileChange.Delete t = c ∧ S = T := by simpa using hc
      exact ⟨rfl, .delete path hS⟩
  | UpdateFile path move_path chunks =>
    obtain ⟨r, U, hd, hpure⟩ := Io.bind_ok.mp hc
    obtain ⟨hU, hS, hn⟩ := derive_plain_ok hd
    obtain ⟨rfl, rfl⟩ : ApplyPatchFileChange.Update (pkgs.unified_diff r.1 r.2 1)
        (move_path.map (Path.join cwd)) r.2 = c ∧ U = T := by simpa using hpure
    exact ⟨hU, .update path move_path chunks hS hn⟩

/-- The loop accepts only verified changes, one for each hunk and in their order. -/
theorem verify_hunks_ok {pkgs : Packages} {cwd : Path} {S T : Files} {hunks : List Hunk}
    {m m' : ChangeMap} (h : verify_hunks plain pkgs cwd hunks m S = (.ok m', T)) :
    T = S ∧ ∃ es, m'.entries = m.entries ++ es ∧ List.Forall₂ (Verified pkgs cwd S) hunks es := by
  induction hunks generalizing m with
  | nil =>
    obtain ⟨rfl, rfl⟩ : m = m' ∧ S = T := by simpa [verify_hunks] using h
    exact ⟨rfl, [], by simp, .nil⟩
  | cons hunk hunks ih =>
    simp only [verify_hunks] at h
    split at h
    · simp at h
    · obtain ⟨c, U, hc, hrest⟩ := Io.bind_ok.mp h
      obtain ⟨hU, hv⟩ := change_of_ok hc
      rw [hU] at hrest
      obtain ⟨hT, es, hes, hall⟩ := ih hrest
      refine ⟨hT, (hunk.resolve_path cwd, c) :: es, ?_, .cons hv hall⟩
      rw [hes]
      simp [ChangeMap.insert]

/-- An accepted patch was parsed into hunks, and its changes are the verified ones. -/
theorem verified_body {pkgs : Packages} {argv : List Text} {cwd : Path} {S T : Files}
    {action : ApplyPatchAction}
    (h : maybe_parse_apply_patch_verified plain pkgs argv cwd S = (.ok (.Body action), T)) :
    ∃ args, maybe_parse_apply_patch pkgs argv = .Body args ∧
      List.Forall₂ (Verified pkgs action.cwd S) args.hunks action.changes.entries := by
  unfold maybe_parse_apply_patch_verified at h
  split_ifs at h
  · simp at h
  · simp at h
  · cases hargs : maybe_parse_apply_patch pkgs argv with
    | ShellParseError e => simp [hargs] at h
    | PatchParseError e => simp [hargs] at h
    | NotApplyPatch => simp [hargs] at h
    | Body args =>
      refine ⟨args, rfl, ?_⟩
      simp only [hargs] at h
      rcases hv : verify_hunks plain pkgs (effective_cwd_of args.workdir cwd) args.hunks
        ChangeMap.empty S with ⟨r, U⟩
      rw [hv] at h
      rcases r with e | changes
      · rcases e with _ | e <;> simp at h
      · simp only [Prod.mk.injEq, Except.ok.injEq, MaybeApplyPatchVerified.Body.injEq] at h
        obtain ⟨rfl, rfl⟩ := h
        obtain ⟨-, es, hes, hall⟩ := verify_hunks_ok hv
        simp only [ChangeMap.empty, List.nil_append] at hes
        simp only [hes]
        exact hall

theorem change_of_verified {pkgs : Packages} {cwd : Path} {S : Files} {h : Hunk}
    {e : Path × ApplyPatchFileChange} (hv : Verified pkgs cwd S h e) :
    change_of plain pkgs cwd (h.resolve_path cwd) h S = (.ok e.2, S) := by
  cases hv with
  | add path contents => rfl
  | delete path hS =>
    simp [change_of, Hunk.resolve_path, Hunk.path, Io.bind_run, Io.map_err, plain_read hS]
  | update path move_path chunks hS hn =>
    simp [change_of, derive_new_contents_from_chunks, Hunk.resolve_path, Hunk.path, Io.bind_run,
      Io.map_err, plain_read hS, hn, Io.ofExcept]

/-- The loop accepts verified changes of paths that differ. -/
theorem verify_hunks_of_verified {pkgs : Packages} {cwd : Path} {S : Files} {hunks : List Hunk}
    {es : List (Path × ApplyPatchFileChange)} (hv : List.Forall₂ (Verified pkgs cwd S) hunks es)
    (m m' : ChangeMap) (hm : m'.entries = m.entries ++ es) :
    verify_hunks plain pkgs cwd hunks m S = (.ok m', S) := by
  induction hv generalizing m with
  | nil =>
    obtain ⟨entries, nodup⟩ := m'
    simp only [List.append_nil] at hm
    subst hm
    rfl
  | @cons h e hunks es hv _ ih =>
    have hfresh : ¬ m.contains_key (h.resolve_path cwd) := by
      intro hmem
      have hnd := m'.nodup
      rw [hm, List.map_append, List.map_cons, hv.key] at hnd
      exact (List.nodup_append.mp hnd).2.2 _ hmem _ List.mem_cons_self rfl
    simp only [verify_hunks, dif_neg hfresh, Io.bind_run_ok (change_of_verified hv)]
    refine ih _ ?_
    simp [hm, ChangeMap.insert, ← hv.key]

/-- A patch with verified changes of paths that differ is accepted with these changes. -/
theorem accepts_verified {pkgs : Packages} {argv : List Text} {cwd : Path} {S : Files}
    {args : ApplyPatchArgs} (hheredoc : is_malformed_heredoc argv = false)
    (himplicit : is_implicit argv = false) (hargs : maybe_parse_apply_patch pkgs argv = .Body args)
    {changes : ChangeMap} (hv : List.Forall₂ (Verified pkgs (effective_cwd_of args.workdir cwd) S)
      args.hunks changes.entries) :
    maybe_parse_apply_patch_verified plain pkgs argv cwd S =
      (.ok (.Body ⟨changes, args.patch, effective_cwd_of args.workdir cwd⟩), S) := by
  simp [maybe_parse_apply_patch_verified, hheredoc, himplicit, hargs,
    verify_hunks_of_verified hv ChangeMap.empty changes rfl]

end Ecode.apply_patch
