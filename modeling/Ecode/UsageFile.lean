-- The file of an account's usage record: processes that each open it, lock what
-- they opened, read it, and rename a new file over it.
import Ecode.AccountUsage
import Ecode.Runs

open Ecode.calendar Ecode.runs

namespace Ecode.account_usage

/-! ## The calls -/

/-- A call of `with_usage_file`: the plan and the closure that changes the record. -/
structure Call (F : Type) where
  plan : Option Text
  update : AccountUsageData F → AccountUsageData F

variable {F : Type}

def record_token_usage_call (plan : Option Text) (usage : TokenUsage) (observed_at : DateTime) :
    Call F where
  plan := plan
  update := record_token_usage usage observed_at

/-- `observed_at + Duration::seconds(seconds as i64)`. -/
def after_seconds (observed_at : DateTime) (seconds : Nat) : DateTime :=
  observed_at + SECOND * (if seconds < 2 ^ 63 then (seconds : Int) else (seconds : Int) - 2 ^ 64)

def record_rate_limit_snapshot_call (plan : Option Text) (snapshot : RateLimitSnapshotEvent F)
    (observed_at : DateTime) : Call F where
  plan := plan
  update data :=
    { data with
      last_updated := observed_at
      rate_limit := some { data.rate_limit.getD {} with
        snapshot := some snapshot
        observed_at := some observed_at
        primary_next_reset_at :=
          snapshot.primary_reset_after_seconds.map (after_seconds observed_at)
        secondary_next_reset_at :=
          snapshot.secondary_reset_after_seconds.map (after_seconds observed_at) } }

def record_usage_limit_hint_call (plan : Option Text) (resets_in_seconds : Option Nat)
    (observed_at : DateTime) : Call F where
  plan := plan
  update data :=
    let info := { data.rate_limit.getD {} with last_usage_limit_hit_at := some observed_at }
    { data with
      last_updated := observed_at
      rate_limit := some (match resets_in_seconds with
        | none => info
        | some seconds => { info with
            primary_next_reset_at := some (after_seconds observed_at seconds)
            secondary_next_reset_at := some (after_seconds observed_at seconds) }) }

/-! ## The file -/

/-- What a usage file holds, as `serde_json` reads it: no record if it is empty, blank or does
not parse. A record that was written is read back as it was. -/
abbrev Contents (F : Type) := Option (AccountUsageData F)

/-- The record that `with_usage_file` starts from. -/
def load (account_id : Text) (now : DateTime) : Contents F → AccountUsageData F
  | some parsed => { parsed with version := USAGE_VERSION }
  | none => .new account_id now

/-- What a call makes of the record it has read. -/
def Call.apply (call : Call F) (data : AccountUsageData F) : AccountUsageData F :=
  call.update (data.apply_plan call.plan)

/-- How far a process is in `with_usage_file`, with the inode that it opened. -/
inductive Stage (F : Type) where
  | idle
  | opened (inode : Nat)
  | locked (inode : Nat)
  | loaded (inode : Nat) (data : AccountUsageData F)
  | written (inode : Nat) (data : AccountUsageData F)
  | renamed (inode : Nat)
  | finished
  | failed
  deriving DecidableEq, Repr

/-- The usage directory, the inodes and the processes. -/
structure World (P F : Type) where
  /-- The inode that `{account_id}.json` names. -/
  path : Option Nat
  /-- The inode that `{account_id}.json.tmp` names. -/
  tmp : Option Nat
  contents : Nat → Contents F
  /-- No inode from this one on is in use. -/
  fresh : Nat
  /-- Who holds the advisory lock of an inode. -/
  lock : Nat → Option P
  stage : P → Stage F

inductive Action (P : Type) where
  | open_path (p : P)
  | lock_exclusive (p : P)
  | read (p : P) (now : DateTime)
  | write_tmp (p : P)
  | rename (p : P)
  | unlock (p : P)

namespace World

variable {P : Type} [DecidableEq P]

def at_stage (w : World P F) (p : P) (stage : Stage F) : World P F :=
  { w with stage := Function.update w.stage p stage }

theorem forall_at_stage {w : World P F} {p : P} {stage : Stage F} (R : P → Stage F → Prop) :
    (∀ q, R q ((w.at_stage p stage).stage q)) ↔ R p stage ∧ ∀ q, q ≠ p → R q (w.stage q) :=
  Function.forall_update_iff w.stage R

/-- A new empty file, which takes the next inode. -/
def with_new (w : World P F) : World P F :=
  { w with contents := Function.update w.contents w.fresh none, fresh := w.fresh + 1 }

/-- One step of a process; there is none when it is not at that point, or waits for a lock. -/
def step (account_id : Text) (calls : P → Call F) (w : World P F) :
    Action P → Option (World P F)
  | .open_path p =>
    match w.stage p with
    | .idle =>
      match w.path with
      | some i => some (w.at_stage p (.opened i))
      | none => some ({ w.with_new with path := some w.fresh }.at_stage p (.opened w.fresh))
    | _ => none
  | .lock_exclusive p =>
    match w.stage p with
    | .opened i =>
      if w.lock i = none then
        some ({ w with lock := Function.update w.lock i (some p) }.at_stage p (.locked i))
      else none
    | _ => none
  | .read p now =>
    match w.stage p with
    | .locked i =>
      some (w.at_stage p (.loaded i ((calls p).apply (load account_id now (w.contents i)))))
    | _ => none
  | .write_tmp p =>
    match w.stage p with
    | .loaded i data =>
      match w.tmp with
      | some j =>
        some ({ w with contents := Function.update w.contents j (some data) }.at_stage p
          (.written i data))
      | none =>
        some ({ w.with_new with
          tmp := some w.fresh
          contents := Function.update w.contents w.fresh (some data) }.at_stage p
            (.written i data))
    | _ => none
  | .rename p =>
    match w.stage p with
    | .written i _ =>
      match w.tmp with
      | some j => some ({ w with path := some j, tmp := none }.at_stage p (.renamed i))
      | none => some ({ w with lock := Function.update w.lock i none }.at_stage p .failed)
    | _ => none
  | .unlock p =>
    match w.stage p with
    | .renamed i => some ({ w with lock := Function.update w.lock i none }.at_stage p .finished)
    | _ => none

/-- What a process that opens the path would read. -/
def stored (w : World P F) : Contents F := w.path.bind w.contents

/-- All is idle, no lock is held, and the two names are of different files. -/
structure Start (w : World P F) : Prop where
  idle : ∀ p, w.stage p = .idle
  unlocked : ∀ i, w.lock i = none
  path_used : ∀ i, w.path = some i → i < w.fresh
  tmp_used : ∀ j, w.tmp = some j → j < w.fresh
  apart : ∀ j, w.tmp = some j → w.path ≠ some j

/-- A process that waits for the lock opened the file that the path still names. -/
def opened_current (path : Option Nat) : Stage F → Prop
  | .opened i => path = some i
  | _ => True

instance (path : Option Nat) : (stage : Stage F) → Decidable (opened_current path stage)
  | .opened i => inferInstanceAs (Decidable (path = some i))
  | .idle => isTrue trivial
  | .locked _ => isTrue trivial
  | .loaded _ _ => isTrue trivial
  | .written _ _ => isTrue trivial
  | .renamed _ => isTrue trivial
  | .finished => isTrue trivial
  | .failed => isTrue trivial

/-- No process takes the lock of a file that the path does not name any more. -/
def LocksCurrent (w : World P F) : Action P → Prop
  | .lock_exclusive p => opened_current w.path (w.stage p)
  | _ => True

instance (w : World P F) : (a : Action P) → Decidable (w.LocksCurrent a)
  | .lock_exclusive p => inferInstanceAs (Decidable (opened_current w.path (w.stage p)))
  | .open_path _ => isTrue trivial
  | .read _ _ => isTrue trivial
  | .write_tmp _ => isTrue trivial
  | .rename _ => isTrue trivial
  | .unlock _ => isTrue trivial

end World

/-- The record after the calls of the processes, one after the other. -/
def serial {P : Type} (account_id : Text) (calls : P → Call F) (now : DateTime)
    (start : Contents F) (order : List P) : Contents F :=
  order.foldl (fun c p => some ((calls p).apply (load account_id now c))) start

/-- The inode whose lock a process has and that it will replace. -/
def Stage.busy : Stage F → Option Nat
  | .locked i => some i
  | .loaded i _ => some i
  | .written i _ => some i
  | _ => none

/-- The inode whose lock a process has. -/
def Stage.holds : Stage F → Option Nat
  | .renamed i => some i
  | stage => stage.busy

/-- The record that a process will put at the path. -/
def Stage.data : Stage F → Option (AccountUsageData F)
  | .loaded _ data => some data
  | .written _ data => some data
  | _ => none

/-- The process has replaced the file. -/
def Stage.done : Stage F → Bool
  | .renamed _ => true
  | .finished => true
  | _ => false

/-- What holds as long as only current files are locked; `order` is the order in which processes
replaced the file. -/
structure Orderly {P : Type} (account_id : Text) (calls : P → Call F) (start : Contents F)
    (order : List P) (w : World P F) : Prop where
  path_used : ∀ i, w.path = some i → i < w.fresh
  tmp_used : ∀ j, w.tmp = some j → j < w.fresh
  apart : ∀ j, w.tmp = some j → w.path ≠ some j
  current : ∀ p i, (w.stage p).busy = some i → w.path = some i
  locked : ∀ p i, (w.stage p).holds = some i → w.lock i = some p
  derived : ∀ p d, (w.stage p).data = some d →
    ∃ now, d = (calls p).apply (load account_id now w.stored)
  written : ∀ p i d, w.stage p = .written i d → ∃ j, w.tmp = some j ∧ w.contents j = some d
  no_failure : ∀ p, w.stage p ≠ .failed
  nodup : order.Nodup
  done : ∀ p, p ∈ order ↔ (w.stage p).done = true
  result : ∃ now, w.stored = serial account_id calls now start order

namespace Orderly

variable {P : Type} {account_id : Text} {calls : P → Call F} {start : Contents F}
  {order : List P} {w : World P F}

theorem holds_of_busy {stage : Stage F} {i : Nat} (h : stage.busy = some i) :
    stage.holds = some i := by
  cases stage <;> simp_all [Stage.busy, Stage.holds]

/-- At most one process is about to replace the file. -/
theorem busy_unique (h : Orderly account_id calls start order w) {p q : P} {i j : Nat}
    (hp : (w.stage p).busy = some i) (hq : (w.stage q).busy = some j) : p = q := by
  have hi := h.current p i hp
  have hj := h.current q j hq
  obtain rfl : i = j := by simpa [hi] using hj
  have hlock := h.locked p i (holds_of_busy hp)
  rw [h.locked q i (holds_of_busy hq)] at hlock
  simpa using hlock.symm

/-- A file is made at the path where there was none. -/
theorem create (h : Orderly account_id calls start order w) (hpath : w.path = none) :
    Orderly account_id calls start order { w.with_new with path := some w.fresh } := by
  have hstored : ({ w.with_new with path := some w.fresh } : World P F).stored = w.stored := by
    simp [World.stored, World.with_new, hpath]
  have hidle : ∀ q i, (w.stage q).busy ≠ some i := by
    intro q i hq
    have := h.current q i hq
    simp [hpath] at this
  refine ⟨?_, ?_, ?_, ?_, h.locked, ?_, ?_, h.no_failure, h.nodup, h.done, ?_⟩
  · intro i hi
    simp only [World.with_new, Option.some.injEq] at hi ⊢
    omega
  · intro j hj
    have := h.tmp_used j hj
    simp only [World.with_new]
    omega
  · intro j hj hpathj
    have := h.tmp_used j hj
    simp only [Option.some.injEq] at hpathj
    omega
  · intro q i hq
    exact absurd hq (hidle q i)
  · intro q d hq
    rw [hstored]
    exact h.derived q d hq
  · intro q i d hq
    change w.stage q = .written i d at hq
    exact absurd (show (w.stage q).busy = some i by rw [hq]; rfl) (hidle q i)
  · rw [hstored]
    exact h.result

/-- The temporary file is written by the only process that is about to replace the file. -/
theorem put_tmp (h : Orderly account_id calls start order w) {p : P} {i j fresh : Nat}
    {d : AccountUsageData F} (hp : w.stage p = .loaded i d) (hj : w.path ≠ some j)
    (hused : j < fresh) (hfresh : w.fresh ≤ fresh) :
    Orderly account_id calls start order
      { w with tmp := some j, contents := Function.update w.contents j (some d), fresh } := by
  have hstored : ({ w with
      tmp := some j, contents := Function.update w.contents j (some d), fresh } :
        World P F).stored = w.stored := by
    unfold World.stored
    cases hpath : w.path with
    | none => rfl
    | some k =>
      have hk : k ≠ j := by
        rintro rfl
        exact hj hpath
      simp [Function.update_of_ne hk]
  refine ⟨?_, ?_, ?_, h.current, h.locked, ?_, ?_, h.no_failure, h.nodup, h.done, ?_⟩
  · intro k hk
    have := h.path_used k hk
    simp only
    omega
  · intro k hk
    simp only [Option.some.injEq] at hk
    simp only
    omega
  · intro k hk
    simp only [Option.some.injEq] at hk
    subst hk
    exact hj
  · intro q e hq
    rw [hstored]
    exact h.derived q e hq
  · intro q k e hq
    have hqp : q = p := h.busy_unique (by rw [hq]; rfl) (show (w.stage p).busy = some i by
      rw [hp]
      rfl)
    subst hqp
    simp [hp] at hq
  · rw [hstored]
    exact h.result

theorem data_busy {stage : Stage F} {d : AccountUsageData F} (h : stage.data = some d) :
    ∃ i, stage.busy = some i := by
  cases stage <;> simp_all [Stage.data, Stage.busy]

theorem serial_append (now : DateTime) (p : P) :
    serial account_id calls now start (order ++ [p]) =
      some ((calls p).apply (load account_id now (serial account_id calls now start order))) := by
  simp [serial]

/-- As long as nothing is stored, no call was made, and then the clock is free. -/
theorem serial_none {now : DateTime} (now' : DateTime)
    (h : serial account_id calls now start order = none) :
    serial account_id calls now' start order = none := by
  rcases List.eq_nil_or_concat order with rfl | ⟨rest, p, rfl⟩
  · exact h
  · rw [List.concat_eq_append, serial_append] at h
    simp at h

/-- The record that a process puts at the path is the next one of the order. -/
theorem next_result (h : Orderly account_id calls start order w) {p : P}
    {d : AccountUsageData F} (hp : (w.stage p).data = some d) :
    ∃ now, some d = serial account_id calls now start (order ++ [p]) := by
  obtain ⟨now', rfl⟩ := h.derived p d hp
  obtain ⟨now, hnow⟩ := h.result
  cases hstored : w.stored with
  | none =>
    refine ⟨now', ?_⟩
    rw [hstored] at hnow
    rw [serial_append, serial_none now' hnow.symm]
  | some e =>
    refine ⟨now, ?_⟩
    rw [serial_append, ← hnow, hstored]
    rfl

theorem of_start (h : w.Start) : Orderly account_id calls w.stored [] w where
  path_used := h.path_used
  tmp_used := h.tmp_used
  apart := h.apart
  current p i hp := by simp [h.idle, Stage.busy] at hp
  locked p i hp := by simp [h.idle, Stage.holds, Stage.busy] at hp
  derived p d hp := by simp [h.idle, Stage.data] at hp
  written p i d hp := by simp [h.idle] at hp
  no_failure p := by simp [h.idle]
  nodup := List.nodup_nil
  done p := by simp [h.idle, Stage.done]
  result := ⟨0, rfl⟩

variable [DecidableEq P]

/-- A process goes on to a stage that fits, with the files as they are. -/
theorem advance (h : Orderly account_id calls start order w) {p : P} {stage : Stage F}
    (lock : Nat → Option P) (hbusy : ∀ i, stage.busy = some i → w.path = some i)
    (hself : ∀ i, stage.holds = some i → lock i = some p)
    (hothers : ∀ q i, q ≠ p → (w.stage q).holds = some i → lock i = some q)
    (hdata : ∀ d, stage.data = some d →
      ∃ now, d = (calls p).apply (load account_id now w.stored))
    (hwritten : ∀ i d, stage = .written i d → ∃ j, w.tmp = some j ∧ w.contents j = some d)
    (hfail : stage ≠ .failed) (hdone : stage.done = (w.stage p).done) :
    Orderly account_id calls start order ({ w with lock := lock }.at_stage p stage) where
  path_used := h.path_used
  tmp_used := h.tmp_used
  apart := h.apart
  current := by
    apply (World.forall_at_stage fun _ s => ∀ i, s.busy = some i → w.path = some i).mpr
    exact ⟨hbusy, fun q _ => h.current q⟩
  locked := by
    apply (World.forall_at_stage fun q s => ∀ i, s.holds = some i → lock i = some q).mpr
    exact ⟨hself, fun q hqp i hq => hothers q i hqp hq⟩
  derived := by
    apply (World.forall_at_stage fun q s => ∀ d, s.data = some d →
      ∃ now, d = (calls q).apply (load account_id now w.stored)).mpr
    exact ⟨hdata, fun q _ => h.derived q⟩
  written := by
    apply (World.forall_at_stage fun _ s => ∀ i d, s = .written i d →
      ∃ j, w.tmp = some j ∧ w.contents j = some d).mpr
    exact ⟨hwritten, fun q _ => h.written q⟩
  no_failure := by
    apply (World.forall_at_stage fun _ s => s ≠ .failed).mpr
    exact ⟨hfail, fun q _ => h.no_failure q⟩
  nodup := h.nodup
  done := by
    apply (World.forall_at_stage fun q s => q ∈ order ↔ s.done = true).mpr
    refine ⟨?_, fun q _ => h.done q⟩
    rw [hdone]
    exact h.done p
  result := h.result

/-- The new file takes the path over. -/
theorem rename (h : Orderly account_id calls start order w) {p : P} {i j : Nat}
    {d : AccountUsageData F} (hp : w.stage p = .written i d) (hj : w.tmp = some j) :
    Orderly account_id calls start (order ++ [p])
      ({ w with path := some j, tmp := none }.at_stage p (.renamed i)) := by
  have hbusy : (w.stage p).busy = some i := by
    rw [hp]
    rfl
  have hfree : ∀ q k, q ≠ p → (w.stage q).busy ≠ some k := by
    intro q k hqp hq
    exact hqp (h.busy_unique hq hbusy)
  have hnew : p ∉ order := by
    intro hin
    have := (h.done p).mp hin
    simp [hp, Stage.done] at this
  obtain ⟨now, hnow⟩ := h.next_result (d := d) (by rw [hp]; rfl)
  obtain ⟨j', hj', hcontents⟩ := h.written p i d hp
  obtain rfl : j = j' := by simpa [hj] using hj'
  refine ⟨?_, ?_, ?_, ?_, ?_, ?_, ?_, ?_, ?_, ?_, ?_⟩
  · intro k hk
    obtain rfl : j = k := by simpa [World.at_stage] using hk
    exact h.tmp_used j hj
  · intro k hk
    simp [World.at_stage] at hk
  · intro k hk
    simp [World.at_stage] at hk
  · apply (World.forall_at_stage fun _ s => ∀ k, s.busy = some k → some j = some k).mpr
    refine ⟨by simp [Stage.busy], ?_⟩
    intro q hqp k hq
    exact absurd hq (hfree q k hqp)
  · apply (World.forall_at_stage fun q s => ∀ k, s.holds = some k → w.lock k = some q).mpr
    refine ⟨?_, fun q _ => h.locked q⟩
    intro k hk
    obtain rfl : i = k := by simpa [Stage.holds] using hk
    exact h.locked p i (holds_of_busy hbusy)
  · apply (World.forall_at_stage fun q s => ∀ e, s.data = some e → ∃ now,
      e = (calls q).apply (load account_id now (w.contents j))).mpr
    refine ⟨by simp [Stage.data], ?_⟩
    intro q hqp e hq
    obtain ⟨k, hk⟩ := data_busy hq
    exact absurd hk (hfree q k hqp)
  · apply (World.forall_at_stage fun _ s => ∀ k e, s = .written k e →
      ∃ j, none = some j ∧ w.contents j = some e).mpr
    refine ⟨by simp, ?_⟩
    intro q hqp k e hq
    exact absurd (show (w.stage q).busy = some k by rw [hq]; rfl) (hfree q k hqp)
  · apply (World.forall_at_stage fun _ s => s ≠ .failed).mpr
    exact ⟨by simp, fun q _ => h.no_failure q⟩
  · rw [← List.concat_eq_append]
    exact h.nodup.concat hnew
  · apply (World.forall_at_stage fun q s => q ∈ order ++ [p] ↔ s.done = true).mpr
    refine ⟨by simp [Stage.done], ?_⟩
    intro q hqp
    rw [List.mem_append, List.mem_singleton, or_iff_left hqp]
    exact h.done q
  · refine ⟨now, ?_⟩
    rw [← hnow, ← hcontents]
    rfl

/-- A process opens the file that the path names. -/
theorem open_path (h : Orderly account_id calls start order w) {p : P} (hp : w.stage p = .idle)
    (i : Nat) : Orderly account_id calls start order (w.at_stage p (.opened i)) := by
  refine h.advance w.lock ?_ ?_ (fun q k _ hq => h.locked q k hq) ?_ ?_ ?_ ?_
  · simp [Stage.busy]
  · simp [Stage.holds, Stage.busy]
  · simp [Stage.data]
  · simp
  · simp
  · simp [hp, Stage.done]

theorem lock_exclusive (h : Orderly account_id calls start order w) {p : P} {i : Nat}
    (hp : w.stage p = .opened i) (hpath : w.path = some i) (hfree : w.lock i = none) :
    Orderly account_id calls start order
      ({ w with lock := Function.update w.lock i (some p) }.at_stage p (.locked i)) := by
  refine h.advance _ ?_ ?_ ?_ ?_ ?_ ?_ ?_
  · intro k hk
    obtain rfl : i = k := by simpa [Stage.busy] using hk
    exact hpath
  · intro k hk
    obtain rfl : i = k := by simpa [Stage.holds, Stage.busy] using hk
    simp
  · intro q k _ hq
    have hlock := h.locked q k hq
    have hki : k ≠ i := by
      rintro rfl
      simp [hfree] at hlock
    rw [Function.update_of_ne hki, hlock]
  · simp [Stage.data]
  · simp
  · simp
  · simp [hp, Stage.done]

theorem read (h : Orderly account_id calls start order w) {p : P} {i : Nat}
    (hp : w.stage p = .locked i) (now : DateTime) :
    Orderly account_id calls start order
      (w.at_stage p (.loaded i ((calls p).apply (load account_id now (w.contents i))))) := by
  have hpath : w.path = some i := h.current p i (by rw [hp]; rfl)
  have hstored : w.stored = w.contents i := by simp [World.stored, hpath]
  refine h.advance w.lock ?_ ?_ (fun q k _ hq => h.locked q k hq) ?_ ?_ ?_ ?_
  · intro k hk
    obtain rfl : i = k := by simpa [Stage.busy] using hk
    exact hpath
  · intro k hk
    obtain rfl : i = k := by simpa [Stage.holds, Stage.busy] using hk
    exact h.locked p i (by rw [hp]; rfl)
  · intro d hd
    refine ⟨now, ?_⟩
    rw [hstored]
    simpa [Stage.data] using hd.symm
  · simp
  · simp
  · simp [hp, Stage.done]

/-- The stage after the temporary file was written. -/
theorem note_written (h : Orderly account_id calls start order w) {p : P} {i j : Nat}
    {d : AccountUsageData F} (hp : w.stage p = .loaded i d) (hj : w.tmp = some j)
    (hd : w.contents j = some d) :
    Orderly account_id calls start order (w.at_stage p (.written i d)) := by
  refine h.advance w.lock ?_ ?_ (fun q k _ hq => h.locked q k hq) ?_ ?_ ?_ ?_
  · intro k hk
    exact h.current p k (by rw [hp]; exact hk)
  · intro k hk
    exact h.locked p k (by rw [hp]; exact hk)
  · intro e he
    exact h.derived p e (by rw [hp]; exact he)
  · intro k e he
    obtain ⟨rfl, rfl⟩ : i = k ∧ d = e := by simpa using he
    exact ⟨j, hj, hd⟩
  · simp
  · simp [hp, Stage.done]

theorem unlock (h : Orderly account_id calls start order w) {p : P} {i : Nat}
    (hp : w.stage p = .renamed i) :
    Orderly account_id calls start order
      ({ w with lock := Function.update w.lock i none }.at_stage p .finished) := by
  refine h.advance _ ?_ ?_ ?_ ?_ ?_ ?_ ?_
  · simp [Stage.busy]
  · simp [Stage.holds, Stage.busy]
  · intro q k hqp hq
    have hlock := h.locked q k hq
    have hki : k ≠ i := by
      rintro rfl
      have hown := h.locked p k (by rw [hp]; rfl)
      rw [hlock] at hown
      exact hqp (by simpa using hown)
    rw [Function.update_of_ne hki, hlock]
  · simp [Stage.data]
  · simp
  · simp
  · simp [hp, Stage.done]

theorem step (h : Orderly account_id calls start order w) {w' : World P F} {a : Action P}
    (hok : w.LocksCurrent a) (hstep : w.step account_id calls a = some w') :
    ∃ order', Orderly account_id calls start order' w' := by
  cases a with
  | open_path p =>
    cases hp : w.stage p <;> simp only [World.step, hp, reduceCtorEq] at hstep
    cases hpath : w.path with
    | some i =>
      simp only [hpath, Option.some.injEq] at hstep
      subst hstep
      exact ⟨order, h.open_path hp i⟩
    | none =>
      simp only [hpath, Option.some.injEq] at hstep
      subst hstep
      exact ⟨order, (h.create hpath).open_path hp w.fresh⟩
  | lock_exclusive p =>
    cases hp : w.stage p <;> simp only [World.step, hp, reduceCtorEq] at hstep
    rename_i i
    simp only [Option.ite_none_right_eq_some, Option.some.injEq] at hstep
    obtain ⟨hfree, rfl⟩ := hstep
    have hpath : w.path = some i := by
      simpa [World.LocksCurrent, World.opened_current, hp] using hok
    exact ⟨order, h.lock_exclusive hp hpath hfree⟩
  | read p now =>
    cases hp : w.stage p <;> simp only [World.step, hp, reduceCtorEq, Option.some.injEq] at hstep
    subst hstep
    exact ⟨order, h.read hp now⟩
  | write_tmp p =>
    cases hp : w.stage p <;> simp only [World.step, hp, reduceCtorEq] at hstep
    rename_i i d
    cases htmp : w.tmp with
    | some j =>
      simp only [htmp, Option.some.injEq] at hstep
      subst hstep
      have hput := h.put_tmp hp (h.apart j htmp) (h.tmp_used j htmp) le_rfl
      exact ⟨order, hput.note_written hp rfl (by simp)⟩
    | none =>
      simp only [htmp, Option.some.injEq] at hstep
      subst hstep
      have hfresh : w.path ≠ some w.fresh := by
        intro hpath
        have := h.path_used _ hpath
        omega
      have hput := h.put_tmp hp hfresh (Nat.lt_succ_self w.fresh) (Nat.le_succ w.fresh)
      exact ⟨order, hput.note_written hp rfl (by simp)⟩
  | rename p =>
    cases hp : w.stage p <;> simp only [World.step, hp, reduceCtorEq] at hstep
    rename_i i d
    obtain ⟨j, hj, _⟩ := h.written p i d hp
    simp only [hj, Option.some.injEq] at hstep
    subst hstep
    exact ⟨order ++ [p], h.rename hp hj⟩
  | unlock p =>
    cases hp : w.stage p <;> simp only [World.step, hp, reduceCtorEq, Option.some.injEq] at hstep
    subst hstep
    exact ⟨order, h.unlock hp⟩

end Orderly

/-! ## Runs -/

section runs

variable {P : Type} {account_id : Text} {calls : P → Call F}

theorem orderly_in_every_run [DecidableEq P] {w₀ w : World P F} (hstart : w₀.Start)
    (hrun : Reached (World.step account_id calls) w₀ World.LocksCurrent w) :
    ∃ order, Orderly account_id calls w₀.stored order w := by
  refine Reached.invariant (I := fun w => ∃ order, Orderly account_id calls w₀.stored order w)
    ⟨[], .of_start hstart⟩ ?_ hrun
  rintro s a s' ⟨order, h⟩ hok hstep
  exact h.step hok hstep

/-- A field of the totals that a file holds. -/
def Contents.total (c : Contents F) (f : TokenField) : Nat :=
  match c with
  | some d => d.totals.get f
  | none => 0

theorem total_some (d : AccountUsageData F) (f : TokenField) :
    Contents.total (some d) f = d.totals.get f := rfl

theorem load_totals (now : DateTime) (c : Contents F) (f : TokenField) :
    (load account_id now c).totals.get f = Contents.total c f := by
  cases c with
  | none => exact TokenTotals.default_get f
  | some d => rfl

theorem apply_plan_totals (d : AccountUsageData F) (plan : Option Text) :
    (d.apply_plan plan).totals = d.totals := by
  unfold AccountUsageData.apply_plan
  cases plan with
  | none => rfl
  | some plan =>
    dsimp only
    split_ifs <;> rfl

theorem record_token_usage_total (plan : Option Text) (usage : TokenUsage)
    (observed_at : DateTime) (d : AccountUsageData F) (f : TokenField) :
    ((record_token_usage_call plan usage observed_at).apply d).totals.get f =
      history.saturating_add (d.totals.get f) (usage.get f) := by
  unfold Call.apply record_token_usage_call record_token_usage
  rw [AccountUsageData.update_last_hour_totals]
  unfold AccountUsageData.observe
  rw [TokenTotals.add_usage_get, apply_plan_totals]

/-- Where all calls record a usage, the totals after them are those before and the sum. -/
theorem serial_total {plan : P → Option Text} {usage : P → TokenUsage} {observed_at : P → DateTime}
    (now : DateTime) (start : Contents F) (f : TokenField)
    (hstart : Contents.total start f ≤ history.U64_MAX) (order : List P) :
    Contents.total (serial account_id
        (fun p => record_token_usage_call (plan p) (usage p) (observed_at p)) now start order) f =
      history.saturating_add (Contents.total start f)
        (order.map (fun p => (usage p).get f)).sum := by
  induction order using List.reverseRecOn with
  | nil =>
    simp only [serial, List.foldl_nil, List.map_nil, List.sum_nil]
    unfold history.saturating_add
    omega
  | append_singleton order p ih =>
    rw [Orderly.serial_append, total_some, record_token_usage_total, load_totals, ih,
      List.map_append, List.sum_append]
    simp only [List.map_cons, List.map_nil, List.sum_cons, List.sum_nil]
    unfold history.saturating_add
    omega

/-- In every run in which each process locks the file that the path still names, no call fails,
and when all have finished the file holds the record after all calls, each made once; for calls
that record a usage the totals are then those before and the sum of all. -/
theorem no_update_lost_when_locks_are_current [DecidableEq P] {w₀ w : World P F} (hstart : w₀.Start)
    (hrun : Reached (World.step account_id calls) w₀ World.LocksCurrent w) :
    (∀ p, w.stage p ≠ .failed) ∧ ((∀ p, w.stage p = .finished) →
      ∃ order : List P, order.Nodup ∧ (∀ p, p ∈ order) ∧
        (∃ now, w.stored = serial account_id calls now w₀.stored order) ∧
        ∀ (plan : P → Option Text) (usage : P → TokenUsage) (observed_at : P → DateTime),
          calls = (fun p => record_token_usage_call (plan p) (usage p) (observed_at p)) →
          ∀ f, Contents.total w₀.stored f ≤ history.U64_MAX →
            Contents.total w.stored f = history.saturating_add (Contents.total w₀.stored f)
              (order.map (fun p => (usage p).get f)).sum) := by
  obtain ⟨order, h⟩ := orderly_in_every_run hstart hrun
  refine ⟨h.no_failure, ?_⟩
  intro hfinished
  obtain ⟨now, hnow⟩ := h.result
  refine ⟨order, h.nodup, ?_, ⟨now, hnow⟩, ?_⟩
  · intro p
    rw [h.done p, hfinished p]
    rfl
  · rintro plan usage observed_at rfl f hu64
    rw [hnow]
    exact serial_total now w₀.stored f hu64 order

end runs

/-! ## Two processes -/

/-- An empty usage directory. -/
def empty_world : World Bool Unit where
  path := none
  tmp := none
  contents := fun _ => none
  fresh := 0
  lock := fun _ => none
  stage := fun _ => .idle

theorem empty_world_start : empty_world.Start where
  idle _ := rfl
  unlocked _ := rfl
  path_used i hi := by simp [empty_world] at hi
  tmp_used j hj := by simp [empty_world] at hj
  apart j hj := by simp [empty_world] at hj

/-- Two processes that each record two tokens. -/
def two_calls : Bool → Call Unit := fun _ => record_token_usage_call none ⟨1, 0, 1, 0, 2⟩ 0

/-- The steps of one process from its lock on. -/
def from_lock (p : Bool) : List (Action Bool) :=
  [.lock_exclusive p, .read p 0, .write_tmp p, .rename p, .unlock p]

/-- One process after the other. -/
def in_turn : List (Action Bool) :=
  .open_path true :: from_lock true ++ .open_path false :: from_lock false

/-- The second process opens the path before the first one has replaced the file. -/
def overlapping : List (Action Bool) :=
  .open_path true :: .open_path false :: from_lock true ++ from_lock false

/-- Where two processes are after some steps, and the tokens that the file then holds. -/
def outcome (w : World Bool Unit) : Stage Unit × Stage Unit × Nat :=
  (w.stage true, w.stage false, Contents.total w.stored .total_tokens)

theorem no_update_lost_in_turn :
    ∃ w, outcome w = (.finished, .finished, 4) ∧
      ∃ order : List Bool, order.Nodup ∧ (∀ p, p ∈ order) ∧
        ∃ now, w.stored = serial "a".toList two_calls now none order := by
  have hrun : (in_turn.foldlM (fun w a => if World.LocksCurrent w a then
      World.step "a".toList two_calls w a else none) empty_world).map outcome =
        some (.finished, .finished, 4) := by decide +kernel
  obtain ⟨w, hreached, hout⟩ := Reached.of_run hrun
  have hstages : ∀ p, w.stage p = .finished := by
    intro p
    simp only [outcome, Prod.mk.injEq] at hout
    cases p
    · exact hout.2.1
    · exact hout.1
  obtain ⟨order, hnodup, hall, hserial, _⟩ :=
    (no_update_lost_when_locks_are_current empty_world_start hreached).2 hstages
  exact ⟨w, hout, order, hnodup, hall, hserial⟩

/-- Both processes finish, and the tokens of the first are gone. -/
theorem overlapping_processes_lose_an_update :
    ¬ ∀ w, Reached (World.step "a".toList two_calls) empty_world (fun _ _ => True) w →
      (∀ p, w.stage p = .finished) → Contents.total w.stored .total_tokens = 2 + 2 := by
  intro hall
  have hrun : (overlapping.foldlM (fun w a => if True then
      World.step "a".toList two_calls w a else none) empty_world).map outcome =
        some (.finished, .finished, 2) := by decide +kernel
  obtain ⟨w, hreached, hout⟩ := Reached.of_run hrun
  simp only [outcome, Prod.mk.injEq] at hout
  have htotal := hall w hreached (by simp [hout])
  rw [hout.2.2] at htotal
  omega

end Ecode.account_usage
