-- The review lock (core/src/review_coord.rs): a file that the holder creates, and
-- that others remove when the process recorded in it is no longer alive.
import Ecode.Runs

open Ecode.runs

namespace Ecode.review_coord

/-! ## The lock file and the processes -/

/-- The lock file: which file it is, and the process in its info once that is written. The other
fields of the info are not read by the lock. -/
structure LockFile (P : Type) where
  inode : Nat
  pid : Option P
  deriving DecidableEq, Repr

/-- How far a process is in `try_acquire_lock`, with the file that it created. -/
inductive Guard where
  | idle
  | created (inode : Nat)
  | held (inode : Nat)
  deriving DecidableEq, Repr

/-- How far a process is in `clear_stale_lock_if_dead`. -/
inductive Clearing (P : Type) where
  | idle
  /-- It has read this info, of the file with this inode. -/
  | read (pid : P) (inode : Nat)
  /-- The process in the info was dead. -/
  | stale (inode : Nat)
  deriving DecidableEq, Repr

structure Lock (P : Type) where
  /-- The file at the lock path. -/
  file : Option (LockFile P)
  /-- No inode from this one on is in use. -/
  fresh : Nat
  alive : P → Bool
  guard : P → Guard
  clearing : P → Clearing P

inductive LockAction (P : Type) where
  | create_new (p : P)
  | write_info (p : P)
  | drop_guard (p : P)
  | read_lock_info (p : P)
  | test_pid (p : P)
  | remove_stale (p : P)
  | die (p : P)
  deriving DecidableEq, Repr

/-- The process that takes a step. -/
def LockAction.actor {P : Type} : LockAction P → P
  | .create_new p => p
  | .write_info p => p
  | .drop_guard p => p
  | .read_lock_info p => p
  | .test_pid p => p
  | .remove_stale p => p
  | .die p => p

namespace Lock

variable {P : Type}

/-- What a live process does in a step of `try_acquire_lock`, of `clear_stale_lock_if_dead` or of
the drop of its guard. -/
def act [DecidableEq P] (s : Lock P) : LockAction P → Option (Lock P)
  | .create_new p =>
    match s.guard p with
    | .idle =>
      match s.file with
      | none =>
        some { s with
          file := some { inode := s.fresh, pid := none }
          fresh := s.fresh + 1
          guard := Function.update s.guard p (.created s.fresh) }
      | some _ => some s
    | _ => none
  | .write_info p =>
    match s.guard p with
    | .created i =>
      -- the info goes to the file that was created, wherever that is now
      some { s with
        file := s.file.map (fun f => if f.inode = i then { f with pid := some p } else f)
        guard := Function.update s.guard p (.held i) }
    | _ => none
  | .drop_guard p =>
    match s.guard p with
    | .held _ => some { s with file := none, guard := Function.update s.guard p .idle }
    | _ => none
  | .read_lock_info p =>
    match s.clearing p with
    | .idle =>
      match s.file with
      | some ⟨i, some q⟩ => some { s with clearing := Function.update s.clearing p (.read q i) }
      | _ => some s
    | _ => none
  | .test_pid p =>
    match s.clearing p with
    | .read q i =>
      some { s with
        clearing := Function.update s.clearing p (if s.alive q then .idle else .stale i) }
    | _ => none
  | .remove_stale p =>
    match s.clearing p with
    | .stale _ => some { s with file := none, clearing := Function.update s.clearing p .idle }
    | _ => none
  | .die p => some { s with alive := Function.update s.alive p false }

/-- Only live processes take steps. -/
def step [DecidableEq P] (s : Lock P) (a : LockAction P) : Option (Lock P) :=
  if s.alive (a.actor) then s.act a else none

/-- A live process has a `ReviewGuard`. -/
def Holds (s : Lock P) (p : P) : Prop := s.alive p = true ∧ ∃ i, s.guard p = .held i

/-- No process is in a call, and there is no lock file. -/
structure Start (s : Lock P) : Prop where
  no_file : s.file = none
  no_guard : ∀ p, s.guard p = .idle
  no_clearing : ∀ p, s.clearing p = .idle

/-- The file at the lock path is the one with this inode, or there is none. -/
def at_path (file : Option (LockFile P)) (i : Nat) : Prop := ∀ f ∈ file, f.inode = i

/-- The file that a process would remove as stale is the one whose info it has read. -/
def clears_read (file : Option (LockFile P)) : Clearing P → Prop
  | .stale i => at_path file i
  | _ => True

/-- A stale lock is only removed while it is still the file at the path. -/
def ClearsRead (s : Lock P) : LockAction P → Prop
  | .remove_stale p => clears_read s.file (s.clearing p)
  | _ => True

end Lock

/-! ## Runs that clear what they have read -/

/-- The file that a process created for its guard. -/
def Guard.inode : Guard → Option Nat
  | .idle => none
  | .created i => some i
  | .held i => some i

/-- The file whose info a process has read. -/
def Clearing.inode {P : Type} : Clearing P → Option Nat
  | .idle => none
  | .read _ i => some i
  | .stale i => some i

/-- The file at the path is the one of every live guard, and what was read of a file that is
still there is true. -/
structure Exclusive {P : Type} (s : Lock P) : Prop where
  used_file : ∀ f ∈ s.file, f.inode < s.fresh
  used_guard : ∀ p i, (s.guard p).inode = some i → i < s.fresh
  used_clearing : ∀ p i, (s.clearing p).inode = some i → i < s.fresh
  own : ∀ p q i, (s.guard p).inode = some i → (s.guard q).inode = some i → p = q
  present : ∀ p i, s.alive p = true → (s.guard p).inode = some i → ∃ f ∈ s.file, f.inode = i
  recorded : ∀ f ∈ s.file, ∀ q, f.pid = some q → s.guard q = .held f.inode
  read : ∀ p q i, s.clearing p = .read q i → ∀ f ∈ s.file, f.inode = i → f.pid = some q
  stale : ∀ p i, s.clearing p = .stale i → ∀ f ∈ s.file, f.inode = i →
    ∃ q, f.pid = some q ∧ s.alive q = false

namespace Exclusive

variable {P : Type} {s : Lock P}

theorem of_start (h : s.Start) : Exclusive s where
  used_file f hf := by simp [h.no_file] at hf
  used_guard p i hp := by simp [h.no_guard, Guard.inode] at hp
  used_clearing p i hp := by simp [h.no_clearing, Clearing.inode] at hp
  own p q i hp := by simp [h.no_guard, Guard.inode] at hp
  present p i _ hp := by simp [h.no_guard, Guard.inode] at hp
  recorded f hf := by simp [h.no_file] at hf
  read p q i hp := by simp [h.no_clearing] at hp
  stale p i hp := by simp [h.no_clearing] at hp

/-- Two live processes cannot both have made the file at the path. -/
theorem one_live (h : Exclusive s) {p q : P} {i j : Nat} (hp : s.alive p = true)
    (hq : s.alive q = true) (hi : (s.guard p).inode = some i) (hj : (s.guard q).inode = some j) :
    p = q := by
  obtain ⟨f, hf, hfi⟩ := h.present p i hp hi
  obtain ⟨g, hg, hgj⟩ := h.present q j hq hj
  obtain rfl : f = g := Option.mem_unique hf hg
  exact h.own p q i hi (by rw [hj, ← hgj, hfi])

/-- The lock file goes when no other live process has a guard. -/
theorem remove_file (h : Exclusive s) (guard : P → Guard) (clearing : P → Clearing P)
    (hguard : ∀ p, guard p = s.guard p ∨ guard p = .idle)
    (hclearing : ∀ p, clearing p = s.clearing p ∨ clearing p = .idle)
    (hfree : ∀ p i, s.alive p = true → (guard p).inode ≠ some i) :
    Exclusive { s with file := none, guard, clearing } := by
  have hwas : ∀ p i, (guard p).inode = some i → (s.guard p).inode = some i := by
    intro p i hp
    rcases hguard p with heq | heq
    · rw [← heq]
      exact hp
    · simp [heq, Guard.inode] at hp
  refine ⟨by simp, ?_, ?_, ?_, ?_, by simp, by simp, by simp⟩
  · intro p i hp
    exact h.used_guard p i (hwas p i hp)
  · intro p i hp
    rcases hclearing p with heq | heq
    · exact h.used_clearing p i (by rw [← heq]; exact hp)
    · simp [heq, Clearing.inode] at hp
  · intro p q i hp hq
    exact h.own p q i (hwas p i hp) (hwas q i hq)
  · intro p i halive hp
    exact absurd hp (hfree p i halive)

variable [DecidableEq P]

theorem create_new (h : Exclusive s) {p : P} (hfile : s.file = none) :
    Exclusive { s with
      file := some { inode := s.fresh, pid := none }
      fresh := s.fresh + 1
      guard := Function.update s.guard p (.created s.fresh) } := by
  have hfree : ∀ q i, s.alive q = true → (s.guard q).inode ≠ some i := by
    intro q i hq hi
    obtain ⟨f, hf, _⟩ := h.present q i hq hi
    simp [hfile] at hf
  have hother : ∀ q i, (Function.update s.guard p (.created s.fresh) q).inode = some i →
      (q = p ∧ i = s.fresh) ∨ (q ≠ p ∧ (s.guard q).inode = some i) := by
    intro q i hq
    by_cases hqp : q = p
    · subst hqp
      exact .inl ⟨rfl, by simpa [Guard.inode] using hq.symm⟩
    · exact .inr ⟨hqp, by simpa [hqp] using hq⟩
  refine ⟨by simp, ?_, ?_, ?_, ?_, by simp, ?_, ?_⟩
  · intro q i hq
    rcases hother q i hq with ⟨_, rfl⟩ | ⟨_, hi⟩
    · exact Nat.lt_succ_self _
    · exact Nat.lt_succ_of_lt (h.used_guard q i hi)
  · intro q i hq
    exact Nat.lt_succ_of_lt (h.used_clearing q i hq)
  · intro q r i hq hr
    rcases hother q i hq with ⟨rfl, rfl⟩ | ⟨_, hi⟩ <;>
      rcases hother r _ hr with ⟨rfl, hi'⟩ | ⟨_, hi'⟩
    · rfl
    · exact absurd (h.used_guard r _ hi') (Nat.lt_irrefl _)
    · subst hi'
      exact absurd (h.used_guard q _ hi) (Nat.lt_irrefl _)
    · exact h.own q r i hi hi'
  · intro q i halive hq
    rcases hother q i hq with ⟨_, rfl⟩ | ⟨_, hi⟩
    · exact ⟨_, rfl, rfl⟩
    · exact absurd hi (hfree q i halive)
  · intro q r i hq f hf hi
    have hlt := h.used_clearing q i (by rw [hq]; rfl)
    obtain rfl : ⟨s.fresh, none⟩ = f := by simpa using hf
    simp only at hi
    omega
  · intro q i hq f hf hi
    have hlt := h.used_clearing q i (by rw [hq]; rfl)
    obtain rfl : ⟨s.fresh, none⟩ = f := by simpa using hf
    simp only at hi
    omega

theorem write_info (h : Exclusive s) {p : P} {i : Nat} (hp : s.guard p = .created i) :
    Exclusive { s with
      file := s.file.map (fun f => if f.inode = i then { f with pid := some p } else f)
      guard := Function.update s.guard p (.held i) } := by
  have hinode : ∀ q, (Function.update s.guard p (.held i) q).inode = (s.guard q).inode := by
    intro q
    by_cases hqp : q = p
    · subst hqp
      simp [hp, Guard.inode]
    · simp [hqp]
  -- nobody has read an info of this file: it has none before this step
  have hfresh : ∀ f ∈ s.file, f.inode = i → f.pid = none := by
    intro f hf hi
    cases hpid : f.pid with
    | none => rfl
    | some q =>
      have hq := h.recorded f hf q hpid
      have hqp : q = p := h.own q p i (by rw [hq, ← hi]; rfl) (by rw [hp]; rfl)
      subst hqp
      simp [hp] at hq
  refine ⟨?_, ?_, h.used_clearing, ?_, ?_, ?_, ?_, ?_⟩
  · intro f hf
    obtain ⟨g, hg, rfl⟩ := Option.mem_map.mp hf
    have hlt := h.used_file g hg
    split_ifs <;> exact hlt
  · intro q k hq
    exact h.used_guard q k (by rw [← hinode]; exact hq)
  · intro q r k hq hr
    exact h.own q r k (by rw [← hinode]; exact hq) (by rw [← hinode]; exact hr)
  · intro q k halive hq
    obtain ⟨f, hf, hk⟩ := h.present q k halive (by rw [← hinode]; exact hq)
    refine ⟨_, Option.mem_map_of_mem _ hf, ?_⟩
    split_ifs <;> exact hk
  · intro f hf q hq
    obtain ⟨g, hg, rfl⟩ := Option.mem_map.mp hf
    split_ifs at hq ⊢ with hi
    · obtain rfl : p = q := by simpa using hq
      simp [hi]
    · have hheld := h.recorded g hg q hq
      have hqp : q ≠ p := by
        rintro rfl
        simp [hp] at hheld
      exact (Function.update_of_ne hqp _ _).trans hheld
  · intro q r k hq f hf hk
    obtain ⟨g, hg, rfl⟩ := Option.mem_map.mp hf
    split_ifs at hk ⊢ with hi
    · have hpid := h.read q r k hq g hg hk
      simp [hfresh g hg hi] at hpid
    · exact h.read q r k hq g hg hk
  · intro q k hq f hf hk
    obtain ⟨g, hg, rfl⟩ := Option.mem_map.mp hf
    split_ifs at hk ⊢ with hi
    · obtain ⟨r, hpid, _⟩ := h.stale q k hq g hg hk
      simp [hfresh g hg hi] at hpid
    · exact h.stale q k hq g hg hk

/-- A process goes on in `clear_stale_lock_if_dead`, with what is true of the file. -/
theorem note (h : Exclusive s) (p : P) (clearing : Clearing P)
    (hused : ∀ i, clearing.inode = some i → i < s.fresh)
    (hread : ∀ q i, clearing = .read q i → ∀ f ∈ s.file, f.inode = i → f.pid = some q)
    (hstale : ∀ i, clearing = .stale i → ∀ f ∈ s.file, f.inode = i →
      ∃ q, f.pid = some q ∧ s.alive q = false) :
    Exclusive { s with clearing := Function.update s.clearing p clearing } := by
  refine ⟨h.used_file, h.used_guard, ?_, h.own, h.present, h.recorded, ?_, ?_⟩
  · intro q i hq
    by_cases hqp : q = p
    · subst hqp
      exact hused i (by simpa using hq)
    · exact h.used_clearing q i (by simpa [hqp] using hq)
  · intro q r i hq
    by_cases hqp : q = p
    · subst hqp
      exact hread r i (by simpa using hq)
    · exact h.read q r i (by simpa [hqp] using hq)
  · intro q i hq
    by_cases hqp : q = p
    · subst hqp
      exact hstale i (by simpa using hq)
    · exact h.stale q i (by simpa [hqp] using hq)

theorem die (h : Exclusive s) (p : P) :
    Exclusive { s with alive := Function.update s.alive p false } := by
  have hwas : ∀ q, Function.update s.alive p false q = true → s.alive q = true := by
    intro q hq
    by_cases hqp : q = p
    · simp [hqp] at hq
    · simpa [hqp] using hq
  refine ⟨h.used_file, h.used_guard, h.used_clearing, h.own, ?_, h.recorded, h.read, ?_⟩
  · intro q i hq
    exact h.present q i (hwas q hq)
  · intro q i hq f hf hi
    obtain ⟨r, hpid, hdead⟩ := h.stale q i hq f hf hi
    refine ⟨r, hpid, ?_⟩
    cases halive : Function.update s.alive p false r with
    | false => exact halive
    | true => rw [hwas r halive] at hdead; cases hdead

theorem drop_guard (h : Exclusive s) {p : P} {i : Nat} (halive : s.alive p = true)
    (hp : s.guard p = .held i) :
    Exclusive { s with file := none, guard := Function.update s.guard p .idle } := by
  refine h.remove_file _ s.clearing ?_ (fun _ => .inl rfl) ?_
  · intro q
    by_cases hqp : q = p
    · subst hqp
      exact .inr (by simp)
    · exact .inl (by simp [hqp])
  · intro q k hq hk
    by_cases hqp : q = p
    · simp [hqp, Guard.inode] at hk
    · exact hqp (h.one_live hq halive (show _ = some k by simpa [hqp] using hk) (by rw [hp]; rfl))

theorem remove_stale (h : Exclusive s) {p : P} {i : Nat} (hp : s.clearing p = .stale i)
    (hsame : Lock.at_path s.file i) :
    Exclusive { s with file := none, clearing := Function.update s.clearing p .idle } := by
  refine h.remove_file s.guard _ (fun _ => .inl rfl) ?_ ?_
  · intro q
    by_cases hqp : q = p
    · subst hqp
      exact .inr (by simp)
    · exact .inl (by simp [hqp])
  · intro q k hq hk
    -- the file is the one that was read, and its process is dead
    obtain ⟨f, hf, hfk⟩ := h.present q k hq hk
    obtain ⟨r, hpid, hdead⟩ := h.stale p i hp f hf (hsame f hf)
    have hr := h.recorded f hf r hpid
    have hqr : q = r := h.own q r k hk (by rw [hr, ← hfk]; rfl)
    rw [← hqr, hq] at hdead
    cases hdead

theorem step (h : Exclusive s) {s' : Lock P} {a : LockAction P} (hok : s.ClearsRead a)
    (hstep : s.step a = some s') : Exclusive s' := by
  simp only [Lock.step, Option.ite_none_right_eq_some] at hstep
  obtain ⟨halive, hact⟩ := hstep
  cases a with
  | create_new p =>
    cases hp : s.guard p <;> simp only [Lock.act, hp, reduceCtorEq] at hact
    cases hfile : s.file with
    | none =>
      simp only [hfile, Option.some.injEq] at hact
      subst hact
      exact h.create_new hfile
    | some f =>
      simp only [hfile, Option.some.injEq] at hact
      subst hact
      exact h
  | write_info p =>
    cases hp : s.guard p <;> simp only [Lock.act, hp, reduceCtorEq, Option.some.injEq] at hact
    subst hact
    exact h.write_info hp
  | drop_guard p =>
    cases hp : s.guard p <;> simp only [Lock.act, hp, reduceCtorEq, Option.some.injEq] at hact
    subst hact
    exact h.drop_guard halive hp
  | read_lock_info p =>
    cases hp : s.clearing p <;> simp only [Lock.act, hp, reduceCtorEq] at hact
    rcases hfile : s.file with _ | ⟨i, _ | q⟩ <;>
      simp only [hfile, Option.some.injEq] at hact <;> subst hact
    · exact h
    · exact h
    · rw [← hfile]
      refine h.note p (.read q i) ?_ ?_ (by simp)
      · intro k hk
        obtain rfl : i = k := by simpa [Clearing.inode] using hk
        exact h.used_file ⟨i, some q⟩ hfile
      · rintro r k heq f hf _
        obtain ⟨rfl, rfl⟩ : q = r ∧ i = k := by simpa using heq
        rw [hfile] at hf
        obtain rfl : ⟨i, some q⟩ = f := by simpa using hf
        rfl
  | test_pid p =>
    cases hp : s.clearing p <;> simp only [Lock.act, hp, reduceCtorEq, Option.some.injEq] at hact
    rename_i q i
    subst hact
    cases hq : s.alive q with
    | true => exact h.note p _ (by simp [Clearing.inode]) (by simp) (by simp)
    | false =>
      refine h.note p _ ?_ (by simp) ?_
      · intro k hk
        obtain rfl : i = k := by simpa [Clearing.inode] using hk
        exact h.used_clearing p i (by rw [hp]; rfl)
      · intro k hk f hf hi
        obtain rfl : i = k := by simpa using hk
        exact ⟨q, h.read p q i hp f hf hi, hq⟩
  | remove_stale p =>
    cases hp : s.clearing p <;> simp only [Lock.act, hp, reduceCtorEq, Option.some.injEq] at hact
    subst hact
    simp only [Lock.ClearsRead, hp, Lock.clears_read] at hok
    exact h.remove_stale hp hok
  | die p =>
    obtain rfl : _ = s' := by simpa [Lock.act] using hact
    exact h.die p

end Exclusive

/-- In every run in which a stale lock is only removed while it is still the file at the path, at
most one live process has a guard. -/
theorem one_holder_when_the_read_lock_is_cleared {P : Type} [DecidableEq P] {start s : Lock P}
    (hstart : start.Start) (hrun : Reached Lock.step start Lock.ClearsRead s) {p q : P}
    (hp : s.Holds p) (hq : s.Holds q) : p = q := by
  have h : Exclusive s := Reached.invariant (I := Exclusive) (.of_start hstart)
    (fun _ _ _ h hok hstep => h.step hok hstep) hrun
  obtain ⟨hplive, i, hi⟩ := hp
  obtain ⟨hqlive, j, hj⟩ := hq
  exact h.one_live hplive hqlive (show _ = some i by rw [hi]; rfl) (show _ = some j by rw [hj]; rfl)

/-! ## Three processes -/

instance {P : Type} (file : Option (LockFile P)) (i : Nat) : Decidable (Lock.at_path file i) :=
  match file with
  | none => isTrue (by simp [Lock.at_path])
  | some f => decidable_of_iff (f.inode = i) (by simp [Lock.at_path])

instance {P : Type} (file : Option (LockFile P)) :
    (clearing : Clearing P) → Decidable (Lock.clears_read file clearing)
  | .idle => isTrue trivial
  | .read _ _ => isTrue trivial
  | .stale i => inferInstanceAs (Decidable (Lock.at_path file i))

instance {P : Type} (s : Lock P) : (a : LockAction P) → Decidable (s.ClearsRead a)
  | .remove_stale p => inferInstanceAs (Decidable (Lock.clears_read s.file (s.clearing p)))
  | .create_new _ => isTrue trivial
  | .write_info _ => isTrue trivial
  | .drop_guard _ => isTrue trivial
  | .read_lock_info _ => isTrue trivial
  | .test_pid _ => isTrue trivial
  | .die _ => isTrue trivial

def no_lock : Lock (Fin 3) where
  file := none
  fresh := 0
  alive := fun _ => true
  guard := fun _ => .idle
  clearing := fun _ => .idle

theorem no_lock_start : no_lock.Start where
  no_file := rfl
  no_guard _ := rfl
  no_clearing _ := rfl

def try_acquire_lock (p : Fin 3) : List (LockAction (Fin 3)) := [.create_new p, .write_info p]

/-- Process 0 dies with the lock, which process 1 then clears and takes. -/
def taken_over : List (LockAction (Fin 3)) :=
  try_acquire_lock 0 ++ [.die 0, .read_lock_info 1, .test_pid 1, .remove_stale 1] ++
    try_acquire_lock 1

/-- Process 2 has found the lock of process 0 stale before process 1 cleared it. -/
def cleared_twice : List (LockAction (Fin 3)) :=
  try_acquire_lock 0 ++ [.die 0, .read_lock_info 2, .test_pid 2, .read_lock_info 1, .test_pid 1,
    .remove_stale 1] ++ try_acquire_lock 1 ++ [.remove_stale 2] ++ try_acquire_lock 2

/-- Who is alive and has which guard. -/
def holders (s : Lock (Fin 3)) : List (Bool × Guard) :=
  [(s.alive 0, s.guard 0), (s.alive 1, s.guard 1), (s.alive 2, s.guard 2)]

theorem one_holder_after_a_take_over :
    ∃ s, Reached Lock.step no_lock Lock.ClearsRead s ∧ s.Holds 1 ∧ ∀ p, s.Holds p → p = 1 := by
  have hrun : (taken_over.foldlM (fun s a => if Lock.ClearsRead s a then Lock.step s a else none)
      no_lock).map holders = some [(false, .held 0), (true, .held 1), (true, .idle)] := by
    decide +kernel
  obtain ⟨s, hreached, hout⟩ := Reached.of_run hrun
  simp only [holders, List.cons.injEq, Prod.mk.injEq] at hout
  have hone : s.Holds 1 := ⟨hout.2.1.1, 1, hout.2.1.2⟩
  exact ⟨s, hreached, hone,
    fun p hp => one_holder_when_the_read_lock_is_cleared no_lock_start hreached hp hone⟩

/-- The late removal takes the lock of process 1 away, and process 2 gets one too. -/
theorem two_live_processes_hold_the_lock :
    ¬ ∀ s, Reached Lock.step no_lock (fun _ _ => True) s → ∀ p q, s.Holds p → s.Holds q →
      p = q := by
  intro hall
  have hrun : (cleared_twice.foldlM (fun s a => if True then Lock.step s a else none)
      no_lock).map holders = some [(false, .held 0), (true, .held 1), (true, .held 2)] := by
    decide +kernel
  obtain ⟨s, hreached, hout⟩ := Reached.of_run hrun
  simp only [holders, List.cons.injEq, Prod.mk.injEq] at hout
  have hsame := hall s hreached 1 2 ⟨hout.2.1.1, 1, hout.2.1.2⟩
    ⟨hout.2.2.1.1, 2, hout.2.2.1.2⟩
  exact absurd hsame (by decide)

end Ecode.review_coord
