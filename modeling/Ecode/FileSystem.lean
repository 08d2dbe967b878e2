-- File systems: the operations of `std::fs` that the patch programs call, over
-- an arbitrary state, and the plain file system that maps paths to texts.
import Ecode.Paths

namespace Ecode

/-- A computation over a state that ends with a value or an error. The state that an error
leaves stays, as on a disk. -/
def Io (σ ε α : Type) : Type := σ → Except ε α × σ

namespace Io

variable {σ ε ε' α β : Type}

instance : Monad (Io σ ε) where
  pure a := fun s => (.ok a, s)
  bind x f := fun s =>
    match x s with
    | (.ok a, s') => f a s'
    | (.error e, s') => (.error e, s')

/-- An error, with the state as it is. -/
def fail (e : ε) : Io σ ε α := fun s => (.error e, s)

def ofExcept : Except ε α → Io σ ε α
  | .ok a => pure a
  | .error e => fail e

/-- `Result::map_err`, `with_context` and the `From` of the `?` operator. -/
def map_err (f : ε → ε') (x : Io σ ε α) : Io σ ε' α := fun s =>
  match x s with
  | (.ok a, s') => (.ok a, s')
  | (.error e, s') => (.error (f e), s')

@[simp] theorem pure_run (a : α) (s : σ) : (pure a : Io σ ε α) s = (.ok a, s) := rfl

@[simp] theorem fail_run (e : ε) (s : σ) : (fail e : Io σ ε α) s = (.error e, s) := rfl

theorem bind_run (x : Io σ ε α) (f : α → Io σ ε β) (s : σ) :
    (x >>= f) s = match x s with
      | (.ok a, s') => f a s'
      | (.error e, s') => (.error e, s') := rfl

theorem bind_bind {γ : Type} (x : Io σ ε α) (f : α → Io σ ε β) (g : β → Io σ ε γ) :
    (x >>= f) >>= g = x >>= fun a => f a >>= g := by
  funext s
  simp only [bind_run]
  rcases x s with ⟨r, t⟩
  rcases r with e | a <;> rfl

/-- A sequence ends well exactly when both parts do. -/
theorem bind_ok {x : Io σ ε α} {f : α → Io σ ε β} {s s' : σ} {b : β} :
    (x >>= f) s = (.ok b, s') ↔ ∃ a t, x s = (.ok a, t) ∧ f a t = (.ok b, s') := by
  rw [bind_run]
  rcases hx : x s with ⟨r, t⟩
  rcases r with e | a
  · simp
  · simp

theorem bind_run_ok {x : Io σ ε α} {f : α → Io σ ε β} {s t : σ} {a : α} (h : x s = (.ok a, t)) :
    (x >>= f) s = f a t := by
  rw [bind_run, h]

@[simp] theorem map_err_ok {f : ε → ε'} {x : Io σ ε α} {s s' : σ} {a : α} :
    map_err f x s = (.ok a, s') ↔ x s = (.ok a, s') := by
  unfold map_err
  rcases hx : x s with ⟨r, t⟩
  rcases r with e | b
  · simp
  · simp

/-- A computation without its value and its error: what is left is whether it ends well, and
in which state. -/
def erase (x : Io σ ε α) : Io σ Unit Unit := fun s =>
  match x s with
  | (.ok _, s') => (.ok (), s')
  | (.error _, s') => (.error (), s')

@[simp] theorem erase_pure (a : α) : (pure a : Io σ ε α).erase = pure () := rfl

@[simp] theorem erase_map_err (f : ε → ε') (x : Io σ ε α) : (map_err f x).erase = x.erase := by
  funext s
  unfold erase map_err
  rcases x s with ⟨r, t⟩
  rcases r with e | a <;> rfl

theorem erase_bind {x : Io σ ε α} {f : α → Io σ ε β} {y : Io σ Unit Unit}
    (h : ∀ a, (f a).erase = y) : (x >>= f).erase = x.erase >>= fun _ => y := by
  funext s
  simp only [erase, bind_run]
  rcases x s with ⟨r, t⟩
  rcases r with e | a
  · rfl
  · exact congrFun (h a) t

@[simp] theorem erase_bind_pure (x : Io σ ε α) (f : α → β) :
    (x >>= fun a => pure (f a)).erase = x.erase := by
  funext s
  simp only [erase, bind_run]
  rcases x s with ⟨r, t⟩
  rcases r with e | a <;> rfl

theorem erase_ok {x : Io σ ε α} {s t : σ} :
    x.erase s = (.ok (), t) ↔ ∃ a, x s = (.ok a, t) := by
  unfold erase
  rcases x s with ⟨r, u⟩
  rcases r with e | a <;> simp

theorem erase_state (x : Io σ ε α) (s : σ) : (x.erase s).2 = (x s).2 := by
  unfold erase
  rcases x s with ⟨r, u⟩
  rcases r with e | a <;> rfl

end Io

/-- The text of a `std::io::Error`. -/
abbrev IoErr := Text

/-- The file operations of the patch programs, with the state they read and change. -/
structure FileSystem (σ : Type) where
  read_text_file : Path → Io σ IoErr Text
  create_dir_all : Path → Io σ IoErr Unit
  write_text_file : Path → Text → Io σ IoErr Unit
  remove_file : Path → Io σ IoErr Unit
  rename : Path → Path → Io σ IoErr Unit

/-! ## Lists of operations -/

/-- One operation that changes files. -/
inductive FileOp where
  | create_dir_all (path : Path)
  | write_text_file (path : Path) (contents : Text)
  | remove_file (path : Path)
  | rename (path dest : Path)
  deriving DecidableEq, Repr

/-- The paths of files that an operation writes or removes. -/
def FileOp.touched : FileOp → List Path
  | .create_dir_all _ => []
  | .write_text_file path _ => [path]
  | .remove_file path => [path]
  | .rename path dest => [path, dest]

namespace FileSystem

variable {σ : Type} (fs : FileSystem σ)

def perform : FileOp → Io σ IoErr Unit
  | .create_dir_all path => fs.create_dir_all path
  | .write_text_file path contents => fs.write_text_file path contents
  | .remove_file path => fs.remove_file path
  | .rename path dest => fs.rename path dest

/-- The operations in turn, up to the first one that fails. -/
def perform_all : List FileOp → Io σ IoErr Unit
  | [] => pure ()
  | op :: ops => do
    fs.perform op
    perform_all ops

/-- A file operation that adds itself to the log when it is done. -/
def log (op : FileOp) (x : Io σ IoErr Unit) : Io (σ × List FileOp) IoErr Unit := fun s =>
  match x s.1 with
  | (.ok (), s') => (.ok (), s', s.2 ++ [op])
  | (.error e, s') => (.error e, s', s.2)

/-- The same file system, with a log of the operations that were done. -/
def logged : FileSystem (σ × List FileOp) where
  read_text_file path := fun s =>
    let (r, s') := fs.read_text_file path s.1
    (r, s', s.2)
  create_dir_all path := log (.create_dir_all path) (fs.create_dir_all path)
  write_text_file path contents := log (.write_text_file path contents)
    (fs.write_text_file path contents)
  remove_file path := log (.remove_file path) (fs.remove_file path)
  rename path dest := log (.rename path dest) (fs.rename path dest)

theorem perform_logged (op : FileOp) : fs.logged.perform op = log op (fs.perform op) := by
  cases op <;> rfl

@[simp] theorem erase_perform_one (op : FileOp) :
    (fs.perform_all [op]).erase = (fs.perform op).erase :=
  Io.erase_bind_pure (fs.perform op) fun _ => ()

theorem erase_perform_all_append (xs ys : List FileOp) :
    (fs.perform_all (xs ++ ys)).erase =
      (fs.perform_all xs).erase >>= fun _ => (fs.perform_all ys).erase := by
  induction xs with
  | nil => rfl
  | cons op xs ih =>
    simp only [List.cons_append, perform_all]
    rw [Io.erase_bind fun _ => ih, Io.erase_bind fun _ => rfl, Io.bind_bind]

/-- Only operations of the list get into the log. -/
theorem mem_log {ops : List FileOp} {s : σ × List FileOp} {op : FileOp}
    (h : op ∈ (fs.logged.perform_all ops s).2.2) : op ∈ s.2 ∨ op ∈ ops := by
  induction ops generalizing s with
  | nil => exact .inl h
  | cons o ops ih =>
    simp only [perform_all, Io.bind_run, perform_logged, log] at h
    rcases hx : fs.perform o s.1 with ⟨r, t⟩
    rcases r with e | u
    · rw [hx] at h
      exact .inl h
    · rw [hx] at h
      rcases ih h with h | h
      · rcases List.mem_append.mp h with h | h
        · exact .inl h
        · exact .inr (by simp_all)
      · exact .inr (List.mem_cons_of_mem _ h)

end FileSystem

/-! ## The plain file system -/

/-- A map from paths to texts. -/
abbrev Files := Path → Option Text

def NOT_FOUND : IoErr := "No such file or directory (os error 2)".toList

/-- The file system of a map. Only files are in it, so a directory is always there, a write
always lands, and a read, a removal and a rename need the file. A rename onto a file takes
its place, as `rename(2)` does. -/
def plain : FileSystem Files where
  read_text_file p := fun S =>
    match S p with
    | some t => (.ok t, S)
    | none => (.error NOT_FOUND, S)
  create_dir_all _ := fun S => (.ok (), S)
  write_text_file p t := fun S => (.ok (), Function.update S p (some t))
  remove_file p := fun S =>
    match S p with
    | some _ => (.ok (), Function.update S p none)
    | none => (.error NOT_FOUND, S)
  rename p q := fun S =>
    match S p with
    | some t => (.ok (), Function.update (Function.update S p none) q (some t))
    | none => (.error NOT_FOUND, S)

@[simp] theorem plain_create_dir_all (p : Path) (S : Files) :
    plain.create_dir_all p S = (.ok (), S) := rfl

@[simp] theorem plain_write (p : Path) (t : Text) (S : Files) :
    plain.write_text_file p t S = (.ok (), Function.update S p (some t)) := rfl

theorem plain_read {p : Path} {S : Files} {t : Text} (h : S p = some t) :
    plain.read_text_file p S = (.ok t, S) := by
  simp [plain, h]

theorem plain_read_none {p : Path} {S : Files} (h : S p = none) :
    plain.read_text_file p S = (.error NOT_FOUND, S) := by
  simp [plain, h]

theorem plain_remove {p : Path} {S : Files} {t : Text} (h : S p = some t) :
    plain.remove_file p S = (.ok (), Function.update S p none) := by
  simp [plain, h]

theorem plain_rename {p q : Path} {S : Files} {t : Text} (h : S p = some t) :
    plain.rename p q S = (.ok (), Function.update (Function.update S p none) q (some t)) := by
  simp [plain, h]

end Ecode
