-- The applier of patches (apply-patch/src/lib.rs): it runs the hunks one after
-- another on the files. The law says on which patches it ends with the files
-- that the verifier promised.
import Ecode.PatchVerify
import Ecode.Overlay

namespace Ecode.apply_patch

open updates

/-! ## The applier -/

/-- An `anyhow::Error`: a message, an I/O error with its context, or an error of the chunks. -/
inductive AnyhowError where
  | message (text : Text)
  | context (text : Text) (source : IoErr)
  | from_apply_patch (e : ApplyPatchError)
  deriving DecidableEq, Repr

structure AffectedPaths where
  added : List Path
  modified : List Path
  deleted : List Path
  deriving DecidableEq, Repr

def AffectedPaths.none : AffectedPaths := ⟨[], [], []⟩

section applier

variable {σ : Type} (fs : FileSystem σ)

/-- The `create_dir_all` of the parent that comes before a write. -/
def create_parent (cwd path : Path) : Io σ (Fault AnyhowError) Unit :=
  match Path.parent path with
  | some parent =>
    if parent = [] then pure ()
    else (fs.create_dir_all (Path.join cwd parent)).map_err fun e =>
      .error (.context ("Failed to create parent directories for ".toList ++ Path.display path) e)
  | none => pure ()

def write_file (cwd path : Path) (contents : Text) : Io σ (Fault AnyhowError) Unit :=
  (fs.write_text_file (Path.join cwd path) contents).map_err fun e =>
    .error (.context ("Failed to write file ".toList ++ Path.display path) e)

/-- An error of `derive_new_contents_from_chunks` through the `?` operator. -/
def into_anyhow : Fault ApplyPatchError → Fault AnyhowError
  | .panic => .panic
  | .error e => .error (.from_apply_patch e)

/-- One turn of the loop of `apply_hunks_to_files`. The process is in `cwd`, so a relative path
of a hunk is one from there. -/
def apply_hunk (cwd : Path) (affected : AffectedPaths) :
    Hunk → Io σ (Fault AnyhowError) AffectedPaths
  | .AddFile path contents => do
    create_parent fs cwd path
    write_file fs cwd path contents
    pure { affected with added := affected.added ++ [path] }
  | .DeleteFile path => do
    (fs.remove_file (Path.join cwd path)).map_err fun e =>
      .error (.context ("Failed to delete file ".toList ++ Path.display path) e)
    pure { affected with deleted := affected.deleted ++ [path] }
  | .UpdateFile path move_path chunks => do
    let (_, new_contents) ←
      (derive_new_contents_from_chunks fs (Path.join cwd path) path chunks).map_err into_anyhow
    match move_path with
    | some dest => do
      create_parent fs cwd dest
      write_file fs cwd dest new_contents
      (fs.remove_file (Path.join cwd path)).map_err fun e =>
        .error (.context ("Failed to remove original ".toList ++ Path.display path) e)
      pure { affected with modified := affected.modified ++ [dest] }
    | none => do
      write_file fs cwd path new_contents
      pure { affected with modified := affected.modified ++ [path] }

/-- The loop of `apply_hunks_to_files`. -/
def apply_each (cwd : Path) : List Hunk → AffectedPaths → Io σ (Fault AnyhowError) AffectedPaths
  | [], affected => pure affected
  | hunk :: hunks, affected => do
    let affected ← apply_hunk fs cwd affected hunk
    apply_each cwd hunks affected

def apply_hunks_to_files (cwd : Path) (hunks : List Hunk) :
    Io σ (Fault AnyhowError) AffectedPaths :=
  if hunks.isEmpty then Io.fail (.error (.message "No files were modified.".toList))
  else apply_each fs cwd hunks AffectedPaths.none

end applier

/-! ## What the verifier promises -/

/-- The files that a verified change promises. A moved-from path that is its own destination
holds the new content. -/
def promised : Path × ApplyPatchFileChange → List (Path × Option Text)
  | (k, .Add content) => [(k, some content)]
  | (k, .Delete _) => [(k, none)]
  | (k, .Update _ none new_content) => [(k, some new_content)]
  | (k, .Update _ (some dest) new_content) =>
    if dest = k then [(k, some new_content)] else [(dest, some new_content), (k, none)]

/-- The applier ends well, every promised file is there, and every other path is as in `S`. -/
def Agrees (S : Files) (action : ApplyPatchAction)
    (r : Except (Fault AnyhowError) AffectedPaths × Files) : Prop :=
  (∃ affected, r.1 = .ok affected) ∧
  (∀ e ∈ action.changes.entries.flatMap promised, r.2 e.1 = e.2) ∧
  ∀ k, (∀ e ∈ action.changes.entries.flatMap promised, e.1 ≠ k) → r.2 k = S k

/-! ## The patches on which both agree -/

/-- The new contents that the chunks make of the file at `k`, when it has the contents `t`. -/
def remade (k : Path) (chunks : List UpdateFileChunk) (t : Option Text) : Option Text :=
  t.bind fun t => (new_contents_of k chunks t).toOption

/-- The files that a hunk asks for, over the files `S`. -/
def asked (cwd : Path) (S : Files) : Hunk → List (Path × Option Text)
  | .AddFile path contents => [(Path.join cwd path, some contents)]
  | .DeleteFile path => [(Path.join cwd path, none)]
  | .UpdateFile path move_path chunks =>
    let k := Path.join cwd path
    let new := remade k chunks (S k)
    match move_path with
    | none => [(k, new)]
    | some dest =>
      if Path.join cwd dest = k then [(k, new)] else [(Path.join cwd dest, new), (k, none)]

/-- A hunk moves another file onto `k`. -/
def moves_onto (cwd k : Path) : Hunk → Prop
  | .UpdateFile path (some dest) _ => Path.join cwd dest = k ∧ Path.join cwd path ≠ k
  | _ => False

instance (cwd k : Path) (h : Hunk) : Decidable (moves_onto cwd k h) := by
  unfold moves_onto
  split <;> infer_instance

/-- An update that stays at its path comes out right between the hunks before and after it.
When a hunk before moved a file onto the path, the chunks run a second time, on their own
result; and when that gives another text, or the hunk moves the path onto itself and so
removes it, then only a later move onto the path brings the text back. -/
def Settled (cwd : Path) (S : Files) (before : List Hunk) (h : Hunk) (after : List Hunk) : Prop :=
  match h with
  | .UpdateFile path move_path chunks =>
    let k := Path.join cwd path
    let new := remade k chunks (S k)
    let overtaken := ∃ g ∈ before, moves_onto cwd k g
    match move_path with
    | none =>
      overtaken → (remade k chunks new).isSome ∧
        (remade k chunks new = new ∨ ∃ g ∈ after, moves_onto cwd k g)
    | some dest =>
      Path.join cwd dest = k → (overtaken → (remade k chunks new).isSome) ∧
        ∃ g ∈ after, moves_onto cwd k g
  | _ => True

/-- The patches that the applier carries out as verified: there is a hunk, hunks that name one
path ask for one text there, and every update that stays at its path is settled. -/
structure Compatible (cwd : Path) (S : Files) (hunks : List Hunk) : Prop where
  nonempty : hunks ≠ []
  consistent : Consistent (hunks.flatMap (asked cwd S))
  settled : ∀ before h after, hunks = before ++ h :: after → Settled cwd S before h after

/-! ## One hunk on the plain files -/

/-- A hunk runs when its path has the contents `t`. -/
def Runnable (cwd : Path) (t : Option Text) : Hunk → Prop
  | .AddFile _ _ => True
  | .DeleteFile _ => t.isSome
  | .UpdateFile path _ chunks => (remade (Path.join cwd path) chunks t).isSome

/-- The writes of a hunk, when its path has the contents `t`. -/
def writes (cwd : Path) (t : Option Text) : Hunk → List (Path × Option Text)
  | .AddFile path contents => [(Path.join cwd path, some contents)]
  | .DeleteFile path => [(Path.join cwd path, none)]
  | .UpdateFile path move_path chunks =>
    let k := Path.join cwd path
    match move_path with
    | none => [(k, remade k chunks t)]
    | some dest => [(Path.join cwd dest, remade k chunks t), (k, none)]

@[simp] theorem create_parent_plain (cwd path : Path) (T : Files) :
    create_parent plain cwd path T = (.ok (), T) := by
  unfold create_parent
  rcases Path.parent path with _ | parent
  · rfl
  · by_cases hp : parent = []
    · simp [hp]
    · simp [hp, Io.map_err]

@[simp] theorem write_file_plain (cwd path : Path) (t : Text) (T : Files) :
    write_file plain cwd path t T = (.ok (), Function.update T (Path.join cwd path) (some t)) := by
  simp [write_file, Io.map_err]

theorem remove_plain_iff {f : IoErr → Fault AnyhowError} {k : Path} {T T' : Files} {u : Unit} :
    (plain.remove_file k).map_err f T = (.ok u, T') ↔
      (T k).isSome ∧ T' = Function.update T k none := by
  rw [Io.map_err_ok]
  rcases hk : T k with _ | t
  · simp [plain, hk]
  · rw [plain_remove hk]
    simp [eq_comm]

theorem derive_plain_iff {k path : Path} {chunks : List UpdateFileChunk} {T T' : Files}
    {original new : Text} :
    derive_new_contents_from_chunks plain k path chunks T = (.ok (original, new), T') ↔
      T' = T ∧ T k = some original ∧ new_contents_of k chunks original = .ok new := by
  constructor
  · intro h
    obtain ⟨hT, hk, hn⟩ := derive_plain_ok h
    exact ⟨hT, hk, new_contents_of_iff.mp hn⟩
  · rintro ⟨rfl, hk, hn⟩
    rw [new_contents_of_iff (q := path)] at hn
    refine Io.bind_ok.mpr ⟨original, T', ?_, ?_⟩
    · rw [Io.map_err_ok, plain_read hk]
    · simp [hn, Io.ofExcept, Io.bind_run]

theorem remade_eq_some {k : Path} {chunks : List UpdateFileChunk} {t : Option Text} {new : Text} :
    remade k chunks t = some new ↔
      ∃ original, t = some original ∧ new_contents_of k chunks original = .ok new := by
  simp only [remade, Option.bind_eq_some_iff, toOption_eq_some]

/-- A hunk ends well exactly when it is runnable, and then its writes are made. -/
theorem apply_hunk_ok {cwd : Path} (affected : AffectedPaths) {h : Hunk} {T T' : Files} :
    (∃ a, apply_hunk plain cwd affected h T = (.ok a, T')) ↔
      Runnable cwd (T (h.resolve_path cwd)) h ∧
        T' = overlay T (writes cwd (T (h.resolve_path cwd)) h) := by
  cases h with
  | AddFile path contents =>
    simp [apply_hunk, Io.bind_run, Runnable, writes, eq_comm]
  | DeleteFile path =>
    simp only [apply_hunk, Io.bind_ok, remove_plain_iff, Runnable, writes, overlay_cons,
      overlay_nil]
    constructor
    · rintro ⟨a, u, t, ⟨hk, ht⟩, hpure⟩
      obtain ⟨-, rfl⟩ := Prod.mk.inj hpure
      exact ⟨hk, ht⟩
    · rintro ⟨hk, rfl⟩
      exact ⟨_, (), _, ⟨hk, rfl⟩, rfl⟩
  | UpdateFile path move_path chunks =>
    simp only [apply_hunk, Io.bind_ok, Io.map_err_ok, Runnable, writes]
    constructor
    · rintro ⟨a, ⟨original, new⟩, U, hd, hrest⟩
      obtain ⟨rfl, hk, hn⟩ := derive_plain_iff.mp hd
      have hnew : remade (Path.join cwd path) chunks (U (Path.join cwd path)) = some new :=
        remade_eq_some.mpr ⟨original, hk, hn⟩
      refine ⟨by simp [Hunk.resolve_path, Hunk.path, hnew], ?_⟩
      simp only [Hunk.resolve_path, Hunk.path, hnew]
      rcases move_path with _ | dest
      · simp only [Io.bind_run, write_file_plain] at hrest
        exact (Prod.mk.inj hrest).2.symm
      · simp only [Io.bind_run_ok (create_parent_plain _ _ _), Io.bind_run_ok
          (write_file_plain _ _ _ _), Io.bind_ok, remove_plain_iff] at hrest
        obtain ⟨-, V, ⟨-, rfl⟩, hpure⟩ := hrest
        exact (Prod.mk.inj hpure).2.symm
    · rintro ⟨hrun, rfl⟩
      simp only [Hunk.resolve_path, Hunk.path] at hrun ⊢
      obtain ⟨new, hnew⟩ := Option.isSome_iff_exists.mp hrun
      obtain ⟨original, hk, hn⟩ := remade_eq_some.mp hnew
      simp only [hnew]
      rcases move_path with _ | dest
      · refine ⟨{ affected with modified := affected.modified ++ [path] }, (original, new), T,
          derive_plain_iff.mpr ⟨rfl, hk, hn⟩, ?_⟩
        simp [Io.bind_run]
      · refine ⟨{ affected with modified := affected.modified ++ [dest] }, (original, new), T,
          derive_plain_iff.mpr ⟨rfl, hk, hn⟩, ?_⟩
        simp only [Io.bind_run_ok (create_parent_plain _ _ _), Io.bind_run_ok
          (write_file_plain _ _ _ _), Io.bind_ok, remove_plain_iff]
        refine ⟨(), _, ⟨?_, rfl⟩, rfl⟩
        by_cases hd : Path.join cwd path = Path.join cwd dest
        · simp [hd]
        · simp [Function.update_of_ne hd, hk]

/-! ## The run over the hunks -/

/-- The contents that a hunk asks for at its own path. -/
def own (cwd : Path) (S : Files) (h : Hunk) : Option Text :=
  match h with
  | .AddFile _ contents => some contents
  | .DeleteFile _ => none
  | .UpdateFile path move_path chunks =>
    if move_path.any (Path.join cwd · ≠ Path.join cwd path) then none
    else remade (Path.join cwd path) chunks (S (Path.join cwd path))

/-- What a hunk finds at its path: its own text when a hunk before moved a file there. -/
def found (cwd : Path) (S : Files) (before : List Hunk) (h : Hunk) : Option Text :=
  if ∃ g ∈ before, moves_onto cwd (h.resolve_path cwd) g then own cwd S h
  else S (h.resolve_path cwd)

/-- The writes of a run over the hunks. -/
def effects (cwd : Path) (S : Files) (before : List Hunk) : List Hunk → List (Path × Option Text)
  | [] => []
  | h :: hunks => writes cwd (found cwd S before h) h ++ effects cwd S (before ++ [h]) hunks

/-- Every hunk of a run is runnable on what it finds. -/
def Passes (cwd : Path) (S : Files) (before : List Hunk) : List Hunk → Prop
  | [] => True
  | h :: hunks => Runnable cwd (found cwd S before h) h ∧ Passes cwd S (before ++ [h]) hunks

/-- What acceptance says of the hunks: each path has one hunk, and each hunk runs over `S`. -/
structure Accepted (cwd : Path) (S : Files) (hunks : List Hunk) : Prop where
  nodup : (hunks.map (Hunk.resolve_path · cwd)).Nodup
  runnable : ∀ h ∈ hunks, Runnable cwd (S (h.resolve_path cwd)) h

section run

variable {cwd : Path} {S : Files} {whole : List Hunk}

theorem other_path (ha : Accepted cwd S whole) {before after : List Hunk} {g h : Hunk}
    (hw : whole = before ++ h :: after) (hg : g ∈ before ∨ g ∈ after) :
    h.resolve_path cwd ≠ g.resolve_path cwd := by
  have hnd := ha.nodup
  rw [hw, List.map_append, List.map_cons] at hnd
  rcases hg with hg | hg
  · exact fun heq => (List.nodup_append.mp hnd).2.2 _ (List.mem_map_of_mem hg) _
      List.mem_cons_self heq.symm
  · exact fun heq => (List.nodup_cons.mp (List.nodup_append.mp hnd).2.1).1
      (heq ▸ List.mem_map_of_mem hg)

theorem own_mem_asked (h : Hunk) : (h.resolve_path cwd, own cwd S h) ∈ asked cwd S h := by
  cases h with
  | AddFile path contents => simp [asked, own, Hunk.resolve_path, Hunk.path]
  | DeleteFile path => simp [asked, own, Hunk.resolve_path, Hunk.path]
  | UpdateFile path move_path chunks =>
    rcases move_path with _ | dest
    · simp [asked, own, Hunk.resolve_path, Hunk.path]
    · by_cases hd : Path.join cwd dest = Path.join cwd path <;>
        simp [asked, own, Hunk.resolve_path, Hunk.path, hd]

/-- A hunk that moves a file onto `k` asks for the text of that file there. -/
theorem moves_onto_asked {k : Path} {g : Hunk} (hg : moves_onto cwd k g)
    (hr : Runnable cwd (S (g.resolve_path cwd)) g) :
    ∃ t, (k, some t) ∈ asked cwd S g ∧ own cwd S g = none ∧
      (k, some t) ∈ writes cwd (S (g.resolve_path cwd)) g := by
  cases g with
  | AddFile path contents => cases hg
  | DeleteFile path => cases hg
  | UpdateFile path move_path chunks =>
    rcases move_path with _ | dest
    · cases hg
    · obtain ⟨rfl, hne⟩ := hg
      obtain ⟨t, ht⟩ := Option.isSome_iff_exists.mp hr
      simp only [Hunk.resolve_path, Hunk.path] at ht ⊢
      exact ⟨t, by simp [asked, Ne.symm hne, ht], by simp [own, Ne.symm hne], by simp [writes, ht]⟩

/-- The text that a move puts onto the path of a hunk is the one this hunk asks for. -/
theorem overtaken_own (ha : Accepted cwd S whole) (hc : Consistent (whole.flatMap (asked cwd S)))
    {g h : Hunk} (hg : g ∈ whole) (hh : h ∈ whole) (hm : moves_onto cwd (h.resolve_path cwd) g) :
    (h.resolve_path cwd, own cwd S h) ∈ asked cwd S g ∧ (own cwd S h).isSome := by
  obtain ⟨t, ht, -, -⟩ := moves_onto_asked hm (ha.runnable g hg)
  have heq : some t = own cwd S h := hc _ (List.mem_flatMap.mpr ⟨g, hg, ht⟩) _
    (List.mem_flatMap.mpr ⟨h, hh, own_mem_asked h⟩) rfl
  rw [← heq]
  exact ⟨ht, rfl⟩

/-- No file is moved onto the path of a hunk that removes it. -/
theorem not_overtaken (ha : Accepted cwd S whole) (hc : Consistent (whole.flatMap (asked cwd S)))
    {g h : Hunk} (hg : g ∈ whole) (hh : h ∈ whole) (hown : own cwd S h = none) :
    ¬ moves_onto cwd (h.resolve_path cwd) g := by
  intro hm
  have := (overtaken_own ha hc hg hh hm).2
  simp [hown] at this

theorem mem_writes_moves_onto {t : Option Text} {h : Hunk} {e : Path × Option Text}
    (he : e ∈ writes cwd t h) (hne : e.1 ≠ h.resolve_path cwd) : moves_onto cwd e.1 h := by
  cases h with
  | AddFile path contents => simp_all [writes, Hunk.resolve_path, Hunk.path]
  | DeleteFile path => simp_all [writes, Hunk.resolve_path, Hunk.path]
  | UpdateFile path move_path chunks =>
    rcases move_path with _ | dest
    · simp_all [writes, Hunk.resolve_path, Hunk.path]
    · simp only [writes, List.mem_cons, List.not_mem_nil, or_false] at he
      rcases he with rfl | rfl
      · exact ⟨rfl, Ne.symm hne⟩
      · exact absurd rfl hne

theorem moves_onto_writes {k : Path} {g : Hunk} (hg : moves_onto cwd k g) (t : Option Text) :
    ∃ v, (k, v) ∈ writes cwd t g := by
  cases g with
  | AddFile path contents => cases hg
  | DeleteFile path => cases hg
  | UpdateFile path move_path chunks =>
    rcases move_path with _ | dest
    · cases hg
    · obtain ⟨rfl, -⟩ := hg
      exact ⟨_, List.mem_cons_self⟩

theorem moves_onto_own {k : Path} {g : Hunk} (hg : moves_onto cwd k g) : own cwd S g = none := by
  cases g with
  | AddFile path contents => cases hg
  | DeleteFile path => cases hg
  | UpdateFile path move_path chunks =>
    rcases move_path with _ | dest
    · cases hg
    · obtain ⟨rfl, hne⟩ := hg
      simp [own, Ne.symm hne]

theorem asked_moves_onto {g : Hunk} {e : Path × Option Text} (he : e ∈ asked cwd S g)
    (hne : e.1 ≠ g.resolve_path cwd) : moves_onto cwd e.1 g := by
  cases g with
  | AddFile path contents => simp_all [asked, Hunk.resolve_path, Hunk.path]
  | DeleteFile path => simp_all [asked, Hunk.resolve_path, Hunk.path]
  | UpdateFile path move_path chunks =>
    rcases move_path with _ | dest
    · simp_all [asked, Hunk.resolve_path, Hunk.path]
    · simp only [asked] at he
      split at he
      · simp_all [Hunk.resolve_path, Hunk.path]
      · simp only [List.mem_cons, List.not_mem_nil, or_false] at he
        rcases he with rfl | rfl
        · exact ⟨rfl, Ne.symm hne⟩
        · exact absurd rfl hne

/-- A write at the path of another hunk is one that the hunk asks for. -/
theorem foreign_write (ha : Accepted cwd S whole) (hc : Consistent (whole.flatMap (asked cwd S)))
    {before : List Hunk} {g : Hunk} (hb : ∀ f ∈ before, f ∈ whole) (hg : g ∈ whole)
    {e : Path × Option Text} (he : e ∈ writes cwd (found cwd S before g) g)
    (hne : e.1 ≠ g.resolve_path cwd) : e ∈ asked cwd S g := by
  have hm := mem_writes_moves_onto he hne
  have hfound : found cwd S before g = S (g.resolve_path cwd) := by
    refine if_neg ?_
    rintro ⟨f, hf, hf'⟩
    exact not_overtaken ha hc (hb f hf) hg (moves_onto_own hm) hf'
  rw [hfound] at he
  cases g with
  | AddFile path contents => cases hm
  | DeleteFile path => cases hm
  | UpdateFile path move_path chunks =>
    rcases move_path with _ | dest
    · cases hm
    · have hd : Path.join cwd dest ≠ Path.join cwd path := hm.1 ▸ Ne.symm hm.2
      simpa [asked, writes, hd, Hunk.resolve_path, Hunk.path] using he

/-- After a hunk, every later hunk finds what the longer list of hunks before it says. -/
theorem found_after (ha : Accepted cwd S whole) (hc : Consistent (whole.flatMap (asked cwd S)))
    {before : List Hunk} {g h : Hunk} (hb : ∀ f ∈ before, f ∈ whole) (hg : g ∈ whole)
    (hh : h ∈ whole) (hne : h.resolve_path cwd ≠ g.resolve_path cwd) {T : Files}
    (hT : T (h.resolve_path cwd) = found cwd S before h) :
    overlay T (writes cwd (found cwd S before g) g) (h.resolve_path cwd) =
      found cwd S (before ++ [g]) h := by
  by_cases hm : moves_onto cwd (h.resolve_path cwd) g
  · have hfound : found cwd S (before ++ [g]) h = own cwd S h := if_pos ⟨g, by simp, hm⟩
    rw [hfound]
    apply overlay_of_forall_eq
    · intro e he hk
      have he' := foreign_write ha hc hb hg he (hk ▸ hne)
      exact hc _ (List.mem_flatMap.mpr ⟨g, hg, he'⟩) _
        (List.mem_flatMap.mpr ⟨h, hh, own_mem_asked h⟩) hk
    · right
      obtain ⟨v, hv⟩ := moves_onto_writes hm (found cwd S before g)
      exact ⟨_, hv, rfl⟩
  · rw [overlay_of_forall_ne, hT]
    · simp [found, or_and_right, exists_or, hm]
    · intro e he hk
      exact hm (hk ▸ mem_writes_moves_onto he (hk ▸ hne))

/-- A run ends well exactly when every hunk is runnable on what it finds, and then the writes
of the run are made. -/
theorem apply_each_ok (ha : Accepted cwd S whole) (hc : Consistent (whole.flatMap (asked cwd S)))
    {before hunks : List Hunk} (hw : whole = before ++ hunks) (affected : AffectedPaths)
    {T T' : Files} (hT : ∀ h ∈ hunks, T (h.resolve_path cwd) = found cwd S before h) :
    (∃ a, apply_each plain cwd hunks affected T = (.ok a, T')) ↔
      Passes cwd S before hunks ∧ T' = overlay T (effects cwd S before hunks) := by
  induction hunks generalizing before affected T with
  | nil => simp [apply_each, Passes, effects, eq_comm]
  | cons h hunks ih =>
    have hb : ∀ f ∈ before, f ∈ whole := fun f hf => by simp [hw, hf]
    have hh : h ∈ whole := by simp [hw]
    have hstep : ∀ f ∈ hunks,
        overlay T (writes cwd (found cwd S before h) h) (f.resolve_path cwd) =
          found cwd S (before ++ [h]) f := by
      intro f hf
      exact found_after ha hc hb hh (by simp [hw, hf]) (other_path ha hw (.inr hf)).symm
        (hT f (List.mem_cons_of_mem _ hf))
    have ih' := @ih (before ++ [h]) (by simp [hw])
    simp only [apply_each, Io.bind_ok, Passes, effects, overlay_append]
    constructor
    · rintro ⟨a, b, U, hstart, hrest⟩
      obtain ⟨hrun, rfl⟩ := (apply_hunk_ok _).mp ⟨b, hstart⟩
      rw [hT h List.mem_cons_self] at hrun hrest
      obtain ⟨hp, hT'⟩ := (ih' b hstep).mp ⟨a, hrest⟩
      exact ⟨⟨hrun, hp⟩, hT'⟩
    · rintro ⟨⟨hrun, hp⟩, hT'⟩
      rw [← hT h List.mem_cons_self] at hrun
      obtain ⟨b, hstart⟩ := (apply_hunk_ok affected).mpr ⟨hrun, rfl⟩
      rw [hT h List.mem_cons_self] at hstart
      obtain ⟨a, hrest⟩ := (ih' b hstep).mpr ⟨hp, hT'⟩
      exact ⟨a, b, _, hstart, hrest⟩

theorem passes_iff {before hunks : List Hunk} :
    Passes cwd S before hunks ↔ ∀ mid h after, hunks = mid ++ h :: after →
      Runnable cwd (found cwd S (before ++ mid) h) h := by
  induction hunks generalizing before with
  | nil => simp [Passes]
  | cons g hunks ih =>
    simp only [Passes, ih]
    constructor
    · rintro ⟨hg, hrest⟩ mid h after heq
      rcases mid with _ | ⟨f, mid⟩
      · obtain ⟨rfl, -⟩ := List.cons.inj heq
        simpa using hg
      · obtain ⟨rfl, htail⟩ := List.cons.inj heq
        simpa using hrest mid h after htail
    · intro hall
      refine ⟨by simpa using hall [] g hunks rfl, fun mid h after heq => ?_⟩
      simpa using hall (g :: mid) h after (by simp [heq])

theorem effects_append {before xs ys : List Hunk} :
    effects cwd S before (xs ++ ys) = effects cwd S before xs ++ effects cwd S (before ++ xs) ys := by
  induction xs generalizing before with
  | nil => simp [effects]
  | cons x xs ih => simp [effects, ih]

theorem mem_effects {before hunks : List Hunk} {e : Path × Option Text}
    (he : e ∈ effects cwd S before hunks) : ∃ mid h after, hunks = mid ++ h :: after ∧
      e ∈ writes cwd (found cwd S (before ++ mid) h) h := by
  induction hunks generalizing before with
  | nil => cases he
  | cons g hunks ih =>
    rcases List.mem_append.mp he with he | he
    · exact ⟨[], g, hunks, rfl, by simpa using he⟩
    · obtain ⟨mid, h, after, rfl, hw⟩ := ih he
      exact ⟨g :: mid, h, after, rfl, by simpa using hw⟩

theorem moves_onto_effects {before hunks : List Hunk} {k : Path} {g : Hunk} (hg : g ∈ hunks)
    (hm : moves_onto cwd k g) : ∃ e ∈ effects cwd S before hunks, e.1 = k := by
  obtain ⟨mid, after, rfl⟩ := List.append_of_mem hg
  obtain ⟨v, hv⟩ := moves_onto_writes hm (found cwd S (before ++ mid) g)
  exact ⟨(k, v), by simp [effects_append, effects, hv], rfl⟩

/-! ## The files after a run -/

/-- The contents that the writes of a hunk leave at its own path. -/
def left_by (cwd : Path) (t : Option Text) : Hunk → Option Text
  | .AddFile _ contents => some contents
  | .DeleteFile _ => none
  | .UpdateFile path none chunks => remade (Path.join cwd path) chunks t
  | .UpdateFile _ (some _) _ => none

theorem overlay_writes_own (T : Files) (t : Option Text) (h : Hunk) :
    overlay T (writes cwd t h) (h.resolve_path cwd) = left_by cwd t h := by
  cases h with
  | AddFile path contents => simp [writes, left_by, Hunk.resolve_path, Hunk.path]
  | DeleteFile path => simp [writes, left_by, Hunk.resolve_path, Hunk.path]
  | UpdateFile path move_path chunks =>
    rcases move_path with _ | dest <;> simp [writes, left_by, Hunk.resolve_path, Hunk.path]

/-- An update is settled exactly when it runs on what it finds, and leaves its own text or a
later move brings it. -/
theorem settled_iff (ha : Accepted cwd S whole) (hc : Consistent (whole.flatMap (asked cwd S)))
    {before after : List Hunk} {h : Hunk} (hw : whole = before ++ h :: after) :
    Settled cwd S before h after ↔ Runnable cwd (found cwd S before h) h ∧
      (left_by cwd (found cwd S before h) h = own cwd S h ∨
        ∃ g ∈ after, moves_onto cwd (h.resolve_path cwd) g) := by
  have hh : h ∈ whole := by simp [hw]
  have hrun := ha.runnable h hh
  have hfree : own cwd S h = none → found cwd S before h = S (h.resolve_path cwd) := by
    intro hown
    refine if_neg ?_
    rintro ⟨f, hf, hm⟩
    exact not_overtaken ha hc (by simp [hw, hf]) hh hown hm
  cases h with
  | AddFile path contents => simp [Settled, Runnable, left_by, own]
  | DeleteFile path =>
    rw [hfree rfl]
    simpa [Settled, left_by, own] using hrun
  | UpdateFile path move_path chunks =>
    by_cases hd : move_path.any (Path.join cwd · ≠ Path.join cwd path)
    · have hown : own cwd S (.UpdateFile path move_path chunks) = none := if_pos hd
      rw [hfree hown, hown]
      rcases move_path with _ | dest
      · simp at hd
      · have hne : Path.join cwd dest ≠ Path.join cwd path := by simpa using hd
        simp [Settled, hne, left_by, hrun]
    · have hown : own cwd S (.UpdateFile path move_path chunks) =
          remade (Path.join cwd path) chunks (S (Path.join cwd path)) := if_neg hd
      simp only [Runnable, Hunk.resolve_path, Hunk.path] at hrun
      rcases move_path with _ | dest
      · by_cases ho : ∃ g ∈ before, moves_onto cwd (Path.join cwd path) g
        · simp [Settled, found, ho, Runnable, left_by, hown, Hunk.resolve_path, Hunk.path]
        · simp [Settled, found, ho, Runnable, left_by, hown, hrun, Hunk.resolve_path, Hunk.path]
      · have heq : Path.join cwd dest = Path.join cwd path := by simpa using hd
        have hlost : none ≠ remade (Path.join cwd path) chunks (S (Path.join cwd path)) := by
          intro hn
          simp [← hn] at hrun
        by_cases ho : ∃ g ∈ before, moves_onto cwd (Path.join cwd path) g
        · simp [Settled, found, ho, Runnable, left_by, hown, hlost, heq, Hunk.resolve_path,
            Hunk.path]
        · simp [Settled, found, ho, Runnable, left_by, hown, hlost, hrun, heq, Hunk.resolve_path,
            Hunk.path]

/-- A write of the run that is not at the path of its own hunk is asked for. -/
theorem mem_effects_asked (ha : Accepted cwd S whole)
    (hc : Consistent (whole.flatMap (asked cwd S))) {before hunks : List Hunk}
    (hw : whole = before ++ hunks) {e : Path × Option Text} (he : e ∈ effects cwd S before hunks)
    (hne : ∀ g ∈ hunks, e.1 ≠ g.resolve_path cwd) : e ∈ whole.flatMap (asked cwd S) := by
  obtain ⟨mid, g, after, rfl, hg⟩ := mem_effects he
  refine List.mem_flatMap.mpr ⟨g, by simp [hw], ?_⟩
  refine foreign_write ha hc (fun f hf => ?_) (by simp [hw]) hg (hne g (by simp))
  rcases List.mem_append.mp hf with hf | hf <;> simp [hw, hf]

/-- What stands at the path of a hunk after the run: its own text when a later hunk moves a
file there, else what its own writes left. -/
theorem overlay_effects_own (ha : Accepted cwd S whole)
    (hc : Consistent (whole.flatMap (asked cwd S))) {before after : List Hunk} {h : Hunk}
    (hw : whole = before ++ h :: after) :
    overlay S (effects cwd S [] whole) (h.resolve_path cwd) =
      if ∃ g ∈ after, moves_onto cwd (h.resolve_path cwd) g then own cwd S h
      else left_by cwd (found cwd S before h) h := by
  have hother : ∀ g ∈ after, h.resolve_path cwd ≠ g.resolve_path cwd :=
    fun g hg => other_path ha hw (.inr hg)
  conv_lhs => rw [hw]
  simp only [effects_append, effects, overlay_append, List.nil_append]
  split
  · rename_i hm
    obtain ⟨g, hg, hm⟩ := hm
    apply overlay_of_forall_eq
    · intro e he hk
      have hsplit : whole = (before ++ [h]) ++ after := by simp [hw]
      have hasked := mem_effects_asked ha hc hsplit he (fun g hg => hk ▸ hother g hg)
      exact hc _ hasked _ (List.mem_flatMap.mpr ⟨h, by simp [hw], own_mem_asked h⟩) hk
    · exact .inr (moves_onto_effects hg hm)
  · rename_i hm
    rw [overlay_of_forall_ne, overlay_writes_own]
    intro e he hk
    obtain ⟨mid, g, rest, rfl, hg⟩ := mem_effects he
    exact hm ⟨g, by simp, hk ▸ mem_writes_moves_onto hg (hk ▸ hother g (by simp))⟩

/-- The run leaves every asked file exactly when it leaves every hunk its own text. -/
theorem overlay_effects_asked_iff (ha : Accepted cwd S whole)
    (hc : Consistent (whole.flatMap (asked cwd S))) :
    (∀ e ∈ whole.flatMap (asked cwd S), overlay S (effects cwd S [] whole) e.1 = e.2) ↔
      ∀ before h after, whole = before ++ h :: after →
        left_by cwd (found cwd S before h) h = own cwd S h ∨
          ∃ g ∈ after, moves_onto cwd (h.resolve_path cwd) g := by
  constructor
  · intro hall before h after hw
    have hfin := hall _ (List.mem_flatMap.mpr ⟨h, by simp [hw], own_mem_asked h⟩)
    rw [overlay_effects_own ha hc hw] at hfin
    split at hfin
    · rename_i hm
      exact .inr hm
    · exact .inl hfin
  · intro hall e he
    by_cases hk : ∃ h ∈ whole, e.1 = h.resolve_path cwd
    · obtain ⟨h, hh, hk⟩ := hk
      have hown : e.2 = own cwd S h :=
        hc e he _ (List.mem_flatMap.mpr ⟨h, hh, own_mem_asked h⟩) hk
      obtain ⟨before, after, hw⟩ := List.append_of_mem hh
      rw [hk, overlay_effects_own ha hc hw, hown]
      rcases hall before h after hw with hl | hm
      · rw [hl, ite_self]
      · rw [if_pos hm]
    · have hne : ∀ g ∈ whole, e.1 ≠ g.resolve_path cwd := fun g hg heq => hk ⟨g, hg, heq⟩
      apply overlay_of_forall_eq
      · intro f hf hfk
        have hasked := mem_effects_asked ha hc (List.nil_append whole).symm hf
          (fun g hg => hfk ▸ hne g hg)
        exact hc f hasked e he hfk
      · obtain ⟨g, hg, heg⟩ := List.mem_flatMap.mp he
        exact .inr (moves_onto_effects hg (asked_moves_onto heg (hne g hg)))

/-- The run changes no path that no hunk asks for. -/
theorem overlay_effects_frame (ha : Accepted cwd S whole) {k : Path}
    (hk : ∀ e ∈ whole.flatMap (asked cwd S), e.1 ≠ k) :
    overlay S (effects cwd S [] whole) k = S k := by
  apply overlay_of_forall_ne
  intro e he hek
  obtain ⟨mid, g, after, hw, hg⟩ := mem_effects he
  have hgw : g ∈ whole := by simp [hw]
  by_cases hkey : e.1 = g.resolve_path cwd
  · exact hk _ (List.mem_flatMap.mpr ⟨g, hgw, own_mem_asked g⟩) (hkey ▸ hek)
  · obtain ⟨t, ht, -⟩ := moves_onto_asked (mem_writes_moves_onto hg hkey) (ha.runnable g hgw)
    exact hk _ (List.mem_flatMap.mpr ⟨g, hgw, ht⟩) hek

end run

/-! ## The law -/

theorem promised_eq_asked {pkgs : Packages} {cwd : Path} {S : Files} {h : Hunk}
    {e : Path × ApplyPatchFileChange} (hv : Verified pkgs cwd S h e) :
    promised e = asked cwd S h := by
  cases hv with
  | add path contents => rfl
  | delete path hS => rfl
  | update path move_path chunks hS hn =>
    have hnew := remade_eq_some.mpr ⟨_, hS, hn⟩
    rcases move_path with _ | dest <;> simp [promised, asked, hnew]

theorem Verified.runnable {pkgs : Packages} {cwd : Path} {S : Files} {h : Hunk}
    {e : Path × ApplyPatchFileChange} (hv : Verified pkgs cwd S h e) :
    Runnable cwd (S (h.resolve_path cwd)) h := by
  cases hv with
  | add path contents => trivial
  | delete path hS => simp [Runnable, Hunk.resolve_path, Hunk.path, hS]
  | update path move_path chunks hS hn =>
    exact Option.isSome_iff_exists.mpr ⟨_, remade_eq_some.mpr ⟨_, hS, hn⟩⟩

theorem verified_flatMap {pkgs : Packages} {cwd : Path} {S : Files} {hunks : List Hunk}
    {entries : List (Path × ApplyPatchFileChange)}
    (hv : List.Forall₂ (Verified pkgs cwd S) hunks entries) :
    entries.flatMap promised = hunks.flatMap (asked cwd S) ∧
      entries.map Prod.fst = hunks.map (Hunk.resolve_path · cwd) ∧
      ∀ h ∈ hunks, Runnable cwd (S (h.resolve_path cwd)) h := by
  induction hv with
  | nil => simp
  | cons hv _ ih =>
    obtain ⟨hflat, hkeys, hrun⟩ := ih
    refine ⟨?_, ?_, ?_⟩
    · simp only [List.flatMap_cons, promised_eq_asked hv, hflat]
    · simp only [List.map_cons, hv.key, hkeys]
    · intro f hf
      rcases List.mem_cons.mp hf with rfl | hf
      · exact hv.runnable
      · exact hrun f hf

/-- The applier agrees with the verifier on an accepted patch exactly when its hunks are
compatible. -/
theorem apply_agrees_iff_compatible (pkgs : Packages) (argv : List Text) (cwd : Path)
    (S T : Files) (action : ApplyPatchAction) (args : ApplyPatchArgs)
    (haccept : maybe_parse_apply_patch_verified plain pkgs argv cwd S = (.ok (.Body action), T))
    (hargs : maybe_parse_apply_patch pkgs argv = .Body args) :
    Agrees S action (apply_hunks_to_files plain action.cwd args.hunks S) ↔
      Compatible action.cwd S args.hunks := by
  obtain ⟨args', hargs', hv⟩ := verified_body haccept
  obtain rfl : args' = args := by simpa [hargs'] using hargs
  obtain ⟨hflat, hkeys, hrun⟩ := verified_flatMap hv
  have ha : Accepted action.cwd S args'.hunks := ⟨hkeys ▸ action.changes.nodup, hrun⟩
  rcases hne : args'.hunks with _ | ⟨h0, hunks⟩
  · constructor
    · rintro ⟨⟨a, hok⟩, -⟩
      simp [apply_hunks_to_files] at hok
    · exact fun hc => absurd rfl hc.nonempty
  · rw [← hne]
    have hrun_eq : apply_hunks_to_files plain action.cwd args'.hunks S =
        apply_each plain action.cwd args'.hunks AffectedPaths.none S := by
      simp [apply_hunks_to_files, hne]
    have hstart : ∀ h ∈ args'.hunks, S (h.resolve_path action.cwd) = found action.cwd S [] h := by
      intro h _
      simp [found]
    rw [hrun_eq]
    rcases hr : apply_each plain action.cwd args'.hunks AffectedPaths.none S with ⟨r, S'⟩
    unfold Agrees
    rw [hflat]
    constructor
    · rintro ⟨⟨a, rfl⟩, hasked, -⟩
      have hc : Consistent (args'.hunks.flatMap (asked action.cwd S)) := by
        intro e he f hf hk
        rw [← hasked e he, ← hasked f hf, hk]
      obtain ⟨hp, rfl⟩ := (apply_each_ok ha hc (List.nil_append _).symm _ hstart).mp ⟨a, hr⟩
      rw [overlay_effects_asked_iff ha hc] at hasked
      refine ⟨by simp [hne], hc, fun before h after hw => ?_⟩
      exact (settled_iff ha hc hw).mpr ⟨passes_iff.mp hp before h after hw, hasked before h after hw⟩
    · rintro ⟨-, hc, hsettled⟩
      have hp : Passes action.cwd S [] args'.hunks := passes_iff.mpr fun before h after hw =>
        ((settled_iff ha hc hw).mp (hsettled before h after hw)).1
      obtain ⟨a, hok⟩ := (apply_each_ok ha hc (List.nil_append _).symm AffectedPaths.none
        hstart).mpr ⟨hp, rfl⟩
      obtain ⟨rfl, rfl⟩ := Prod.mk.inj (hr.symm.trans hok)
      refine ⟨⟨a, rfl⟩, ?_, fun k hk => overlay_effects_frame ha hk⟩
      exact (overlay_effects_asked_iff ha hc).mpr fun before h after hw =>
        ((settled_iff ha hc hw).mp (hsettled before h after hw)).2

/-! ## One file and one update -/

/-- The files with the one line `a` in `/w/a`. -/
def one_file : Files := fun p => if p = Path.of_text "/w/a".toList then some "a\n".toList else none

/-- The other packages, as they answer for the update of `one_file`. -/
def one_file_packages : Packages where
  extract_apply_patch_from_bash _ := .error .CommandDidNotStartWithApplyPatch
  unified_diff _ _ _ := "@@ -1 +1 @@\n-a\n+b\n".toList

def update_a (move_path : Option Path) : Hunk :=
  .UpdateFile (Path.of_text "a".toList) move_path [⟨none, ["a".toList], ["b".toList], false⟩]

def update_a_args (move_path : Option Path) (patch : Text) : ApplyPatchArgs :=
  ⟨patch, [update_a move_path], none⟩

def update_a_action (move_path : Option Path) (patch : Text) : ApplyPatchAction where
  changes := ⟨[(Path.of_text "/w/a".toList, .Update "@@ -1 +1 @@\n-a\n+b\n".toList
    (move_path.map (Path.join (Path.of_text "/w".toList))) "b\n".toList)], List.nodup_singleton _⟩
  patch
  cwd := Path.of_text "/w".toList

theorem update_a_accepted {move_path : Option Path} {patch : Text}
    (hheredoc : is_malformed_heredoc ["apply_patch".toList, patch] = false)
    (hargs : maybe_parse_apply_patch one_file_packages ["apply_patch".toList, patch] =
      .Body (update_a_args move_path patch)) :
    maybe_parse_apply_patch_verified plain one_file_packages ["apply_patch".toList, patch]
      (Path.of_text "/w".toList) one_file = (.ok (.Body (update_a_action move_path patch)), one_file) := by
  have hread : one_file (Path.join (Path.of_text "/w".toList) (Path.of_text "a".toList)) =
      some "a\n".toList := by decide +kernel
  have hnew : new_contents_of (Path.join (Path.of_text "/w".toList) (Path.of_text "a".toList))
      [⟨none, ["a".toList], ["b".toList], false⟩] "a\n".toList = .ok "b\n".toList := by
    decide +kernel
  exact accepts_verified hheredoc rfl hargs (.cons (.update _ _ _ hread hnew) .nil)

def in_place_patch : Text :=
  "*** Begin Patch\n*** Update File: a\n@@\n-a\n+b\n*** End Patch".toList

def self_move_patch : Text :=
  "*** Begin Patch\n*** Update File: a\n*** Move to: a\n@@\n-a\n+b\n*** End Patch".toList

theorem apply_agrees_on_one_update :
    Agrees one_file (update_a_action none in_place_patch)
      (apply_hunks_to_files plain (Path.of_text "/w".toList) [update_a none] one_file) := by
  refine (apply_agrees_iff_compatible one_file_packages ["apply_patch".toList, in_place_patch]
    (Path.of_text "/w".toList) one_file one_file (update_a_action none in_place_patch)
    (update_a_args none in_place_patch)
    (update_a_accepted (by decide +kernel) (by decide +kernel)) (by decide +kernel)).mpr ?_
  refine ⟨by simp [update_a_args], by decide +kernel, fun before h after hw => ?_⟩
  rcases before with _ | ⟨g, before⟩
  · obtain ⟨rfl, -⟩ := List.cons.inj hw
    simp [Settled, update_a]
  · have := (List.cons.inj hw).2
    simp at this

/-- An accepted move of a file onto itself: the applier writes the new content and then removes
it, while the verifier promised it. -/
theorem self_move_loses_the_file :
    ∃ action args, maybe_parse_apply_patch_verified plain one_file_packages
        ["apply_patch".toList, self_move_patch] (Path.of_text "/w".toList) one_file =
        (.ok (.Body action), one_file) ∧
      maybe_parse_apply_patch one_file_packages ["apply_patch".toList, self_move_patch] =
        .Body args ∧
      ¬ Agrees one_file action (apply_hunks_to_files plain action.cwd args.hunks one_file) := by
  have hargs : maybe_parse_apply_patch one_file_packages ["apply_patch".toList, self_move_patch] =
      .Body (update_a_args (some (Path.of_text "a".toList)) self_move_patch) := by decide +kernel
  refine ⟨_, _, update_a_accepted (by decide +kernel) hargs, hargs, ?_⟩
  rintro ⟨-, hasked, -⟩
  have hnone : (apply_hunks_to_files plain (Path.of_text "/w".toList)
    [update_a (some (Path.of_text "a".toList))] one_file).2 (Path.of_text "/w/a".toList) = none := by
    decide +kernel
  have hsome := hasked (Path.of_text "/w/a".toList, some "b\n".toList) (by decide +kernel)
  exact absurd (hnone.symm.trans hsome) (by simp)

end Ecode.apply_patch
