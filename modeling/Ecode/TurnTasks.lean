-- The current task of a session (core/src/codex/session.rs): user turns install their
-- tasks, and internal turns for pending input only start when no task is current.
import Ecode.Runs

open Ecode.runs

namespace Ecode.turn_tasks

/-! ## Tasks and internal starts -/

/-- A task with its `sub_id`: a user's turn, or the turn of one of the internal starts `C`. -/
inductive Task (C : Type) where
  | user (sub_id : Nat)
  | internal (c : C)
  deriving DecidableEq, Repr

def Task.is_internal {C : Type} : Task C → Bool
  | .user _ => false
  | .internal _ => true

/-- Which of the two functions a start is a call of. -/
inductive Origin where
  | start_pending_only_turn_if_idle
  | start_post_turn_pending_only_turn_if_idle
  deriving DecidableEq, Repr

/-- How far an internal start is. It keeps how many tasks were installed when it first found the
session idle. -/
inductive Starting where
  | called
  /-- The post-turn input is moved, and the session was idle. -/
  | moved_input (since : Nat)
  /-- `should_start` is true. -/
  | should_start (since : Nat)
  /-- Its task was installed, as the one with this number. -/
  | spawned (since number : Nat)
  /-- It returned false. -/
  | refused
  deriving DecidableEq, Repr

/-- The number under which a start has found the session idle, before it installs its task. -/
def Starting.since : Starting → Option Nat
  | .moved_input since => some since
  | .should_start since => some since
  | _ => none

/-- The part of the session state that these functions read, with the tasks that were aborted as
`Replaced`, each with the one that replaced it. -/
structure Turns (C β : Type) where
  current_task : Option (Task C)
  pending_input : List β
  pending_post_turn_input : List β
  starting : C → Starting
  installed : Nat
  replaced : List (Task C × Task C)

/-- The critical sections. -/
inductive Section (C β : Type) where
  | move_post_turn_input (c : C)
  | test_idle (c : C)
  | set_internal_task (c : C)
  | set_user_task (sub_id : Nat)
  | remove_task (task : Task C)
  | enqueue_post_turn_item (item : β)
  deriving DecidableEq, Repr

namespace Turns

variable {C β : Type}

/-- `set_task`: the task that is current is aborted. -/
def set_task (s : Turns C β) (agent : Task C) : Turns C β :=
  { s with
    current_task := some agent
    installed := s.installed + 1
    replaced := s.replaced ++ s.current_task.toList.map (fun task => (task, agent)) }

section sections

variable [DecidableEq C]

/-- Where a start goes on to the test of `start_internal_pending_only_turn`, with the number of
tasks that were installed when it first found the session idle. -/
def tests_next (origin : C → Origin) (s : Turns C β) (c : C) : Option Nat :=
  match origin c, s.starting c with
  | .start_pending_only_turn_if_idle, .called => some s.installed
  | .start_post_turn_pending_only_turn_if_idle, .moved_input since => some since
  | _, _ => none

/-- One critical section. -/
def step (origin : C → Origin) (s : Turns C β) : Section C β → Option (Turns C β)
  | .move_post_turn_input c =>
    match origin c, s.starting c with
    | .start_post_turn_pending_only_turn_if_idle, .called =>
      if s.current_task.isSome ∨ s.pending_post_turn_input = [] then
        some { s with starting := Function.update s.starting c .refused }
      else
        some { s with
          pending_input := s.pending_input ++ s.pending_post_turn_input
          pending_post_turn_input := []
          starting := Function.update s.starting c (.moved_input s.installed) }
    | _, _ => none
  | .test_idle c =>
    (tests_next origin s c).map fun since =>
      { s with
        starting := Function.update s.starting c
          (if s.current_task.isNone then .should_start since else .refused) }
  | .set_internal_task c =>
    match s.starting c with
    | .should_start since =>
      some { s.set_task (.internal c) with
        starting := Function.update s.starting c (.spawned since s.installed) }
    | _ => none
  | .set_user_task sub_id => some (s.set_task (.user sub_id))
  | .remove_task task =>
    some (if s.current_task = some task then { s with current_task := none } else s)
  | .enqueue_post_turn_item item =>
    some { s with pending_post_turn_input := s.pending_post_turn_input ++ [item] }

end sections

/-- No internal start is under way. -/
structure Start (s : Turns C β) : Prop where
  called : ∀ c, s.starting c = .called
  none_replaced : s.replaced = []

/-- An internal start installs its task when no task was installed since it first found the session
idle. -/
def NothingInstalledSince (s : Turns C β) : Section C β → Prop
  | .set_internal_task c => ∀ since, s.starting c = .should_start since → since = s.installed
  | _ => True

/-- Two starts that spawned a task each found the session idle before the other one had installed
its task. -/
def Concurrent (s : Turns C β) (c d : C) : Prop :=
  ∃ since_c number_c since_d number_d, s.starting c = .spawned since_c number_c ∧
    s.starting d = .spawned since_d number_d ∧ since_c ≤ number_d ∧ since_d ≤ number_c

/-- No internal turn displaced a task, and of several concurrent starts at most one spawned a
task. -/
structure NoneDisplaced (s : Turns C β) : Prop where
  by_internal : ∀ e ∈ s.replaced, e.2.is_internal = false
  one_spawned : ∀ c d, s.Concurrent c d → c = d

/-! ## Runs without an install in between -/

/-- What holds while every internal start meets the condition. -/
structure Orderly (s : Turns C β) : Prop where
  /-- While no task was installed since, the session is still idle. -/
  still_idle : ∀ c since, (s.starting c).since = some since →
    since ≤ s.installed ∧ (since = s.installed → s.current_task = none)
  at_once : ∀ c since number, s.starting c = .spawned since number →
    since = number ∧ number < s.installed
  own_number : ∀ c d number, s.starting c = .spawned number number →
    s.starting d = .spawned number number → c = d
  by_internal : ∀ e ∈ s.replaced, e.2.is_internal = false

theorem Start.orderly {s : Turns C β} (h : Start s) : Orderly s where
  still_idle := by
    intro c since hc
    rw [h.called c] at hc
    cases hc
  at_once := by
    intro c since number hc
    rw [h.called c] at hc
    cases hc
  own_number := by
    intro c d number hc
    rw [h.called c] at hc
    cases hc
  by_internal := by simp [h.none_replaced]

theorem Orderly.none_displaced {s : Turns C β} (h : Orderly s) : NoneDisplaced s := by
  refine ⟨h.by_internal, ?_⟩
  rintro c d ⟨since_c, number_c, since_d, number_d, hc, hd, hcd, hdc⟩
  obtain ⟨rfl, -⟩ := h.at_once c _ _ hc
  obtain ⟨rfl, -⟩ := h.at_once d _ _ hd
  obtain rfl : since_c = since_d := by omega
  exact h.own_number c d since_c hc hd

theorem tests_next_since {origin : C → Origin} {s : Turns C β} (h : Orderly s) {c : C}
    {since : Nat} (hc : tests_next origin s c = some since) :
    since ≤ s.installed ∧ (since = s.installed → s.current_task.isNone = true →
      s.current_task = none) := by
  refine ⟨?_, fun _ hnone => Option.isNone_iff_eq_none.mp hnone⟩
  unfold tests_next at hc
  split at hc
  · obtain rfl := Option.some.inj hc
    exact le_refl _
  · rename_i hmoved
    obtain rfl := Option.some.inj hc
    exact (h.still_idle c _ (by rw [hmoved]; rfl)).1
  · cases hc

/-- A task that is installed is the last one, so no start that waits is at its number. -/
theorem Orderly.set_task {s : Turns C β} (h : Orderly s) (agent : Task C)
    (hagent : ∀ task ∈ s.current_task, agent.is_internal = false) : Orderly (s.set_task agent) := by
  refine ⟨fun c since hc => ?_, fun c since number hc => ?_, h.own_number, fun e he => ?_⟩
  · obtain ⟨hle, -⟩ := h.still_idle c since hc
    change since ≤ s.installed + 1 ∧ (since = s.installed + 1 → _)
    exact ⟨by omega, fun heq => by omega⟩
  · obtain ⟨heq, hlt⟩ := h.at_once c since number hc
    exact ⟨heq, Nat.lt_succ_of_lt hlt⟩
  · rcases List.mem_append.mp he with hold | hnew
    · exact h.by_internal e hold
    · obtain ⟨task, htask, rfl⟩ := List.mem_map.mp hnew
      exact hagent task (Option.mem_toList.mp htask)

section sections

variable [DecidableEq C]

/-- A start that goes on without a task: it was told to start later only when the session is
idle now, or was idle before. -/
theorem Orderly.goes_on {s : Turns C β} (h : Orderly s) {c : C} {next : Starting}
    (hnext : ∀ since, next.since = some since →
      since ≤ s.installed ∧ (since = s.installed → s.current_task = none))
    (hspawned : ∀ since number, next ≠ .spawned since number) (input post : List β) :
    Orderly { s with
      starting := Function.update s.starting c next
      pending_input := input
      pending_post_turn_input := post } := by
  have hold : ∀ d since number, Function.update s.starting c next d = .spawned since number →
      s.starting d = .spawned since number := by
    intro d since number hd
    by_cases hdc : d = c
    · subst hdc
      rw [Function.update_self] at hd
      exact absurd hd (hspawned since number)
    · rwa [Function.update_of_ne hdc] at hd
  refine ⟨fun d since hd => ?_, fun d since number hd => h.at_once d _ _ (hold d _ _ hd),
    fun d e number hd he => h.own_number d e number (hold d _ _ hd) (hold e _ _ he),
    h.by_internal⟩
  dsimp only at hd ⊢
  by_cases hdc : d = c
  · subst hdc
    rw [Function.update_self] at hd
    exact hnext since hd
  · rw [Function.update_of_ne hdc] at hd
    exact h.still_idle d since hd

/-- The start whose task is installed at its own number takes this number. -/
theorem Orderly.spawns {s : Turns C β} (h : Orderly s) {c : C}
    (hc : s.starting c = .should_start s.installed) :
    Orderly { s.set_task (.internal c) with
      starting := Function.update s.starting c (.spawned s.installed s.installed) } := by
  have hidle : s.current_task = none := (h.still_idle c s.installed (by rw [hc]; rfl)).2 rfl
  have hset := h.set_task (.internal c) (by simp [hidle])
  refine ⟨fun d since hd => ?_, fun d since number hd => ?_, fun d e number hd he => ?_,
    hset.by_internal⟩
  · dsimp only at hd ⊢
    by_cases hdc : d = c
    · subst hdc
      rw [Function.update_self] at hd
      cases hd
    · rw [Function.update_of_ne hdc] at hd
      exact hset.still_idle d since hd
  · dsimp only at hd
    by_cases hdc : d = c
    · subst hdc
      rw [Function.update_self] at hd
      cases hd
      exact ⟨rfl, Nat.lt_succ_self _⟩
    · rw [Function.update_of_ne hdc] at hd
      exact hset.at_once d since number hd
  · -- every other start has a smaller number
    have hsmaller : ∀ d : C, d ≠ c → Function.update s.starting c
        (.spawned s.installed s.installed) d = .spawned number number → number < s.installed := by
      intro d hdc hd
      rw [Function.update_of_ne hdc] at hd
      exact (h.at_once d _ _ hd).2
    dsimp only at hd he
    by_cases hdc : d = c <;> by_cases hec : e = c
    · rw [hdc, hec]
    · have hlt := hsmaller e hec he
      rw [hdc, Function.update_self] at hd
      cases hd
      omega
    · have hlt := hsmaller d hdc hd
      rw [hec, Function.update_self] at he
      cases he
      omega
    · rw [Function.update_of_ne hdc] at hd
      rw [Function.update_of_ne hec] at he
      exact h.own_number d e number hd he

theorem step_orderly {origin : C → Origin} {s t : Turns C β} {a : Section C β} (h : Orderly s)
    (hok : NothingInstalledSince s a) (hstep : step origin s a = some t) : Orderly t := by
  cases a with
  | move_post_turn_input c =>
    simp only [step] at hstep
    split at hstep
    · split_ifs at hstep with hrefuse
      · obtain rfl := Option.some.inj hstep
        exact h.goes_on (by rintro _ ⟨⟩) (by rintro _ _ ⟨⟩) _ _
      · obtain rfl := Option.some.inj hstep
        have hidle : s.current_task = none := by
          rcases hcur : s.current_task with _ | task
          · rfl
          · exact absurd (.inl (by rw [hcur]; rfl)) hrefuse
        refine h.goes_on ?_ (by rintro _ _ ⟨⟩) _ _
        rintro since ⟨⟩
        exact ⟨le_refl _, fun _ => hidle⟩
    · cases hstep
  | test_idle c =>
    obtain ⟨since, hsince, rfl⟩ := Option.map_eq_some_iff.mp hstep
    obtain ⟨hle, hidle⟩ := tests_next_since h hsince
    split_ifs with hnone
    · refine h.goes_on ?_ (by rintro _ _ ⟨⟩) _ _
      rintro since' ⟨⟩
      exact ⟨hle, fun heq => hidle heq hnone⟩
    · exact h.goes_on (by rintro _ ⟨⟩) (by rintro _ _ ⟨⟩) _ _
  | set_internal_task c =>
    simp only [step] at hstep
    split at hstep
    · rename_i since hc
      obtain rfl := Option.some.inj hstep
      obtain rfl := hok since hc
      exact h.spawns hc
    · cases hstep
  | set_user_task sub_id =>
    obtain rfl := Option.some.inj hstep
    exact h.set_task _ (fun _ _ => rfl)
  | remove_task task =>
    obtain rfl := Option.some.inj hstep
    split_ifs
    · refine ⟨fun c since hc => ?_, h.at_once, h.own_number, h.by_internal⟩
      exact ⟨(h.still_idle c since hc).1, fun _ => rfl⟩
    · exact h
  | enqueue_post_turn_item item =>
    obtain rfl := Option.some.inj hstep
    exact ⟨h.still_idle, h.at_once, h.own_number, h.by_internal⟩

/-- For any number of internal starts and every order of their critical sections, of the tasks of
user turns and of removals: while every internal start installs its task with no other install since
it first found the session idle, no internal turn displaces a task, and of several concurrent starts
at most one spawns a task. -/
theorem none_displaced_when_nothing_is_installed_since {origin : C → Origin}
    {start s : Turns C β} (hstart : Start start)
    (h : Reached (step origin) start NothingInstalledSince s) : NoneDisplaced s := by
  apply Orderly.none_displaced
  exact h.invariant hstart.orderly fun _ _ _ hs hok ht => step_orderly hs hok ht

instance (s : Turns C β) : (a : Section C β) → Decidable (NothingInstalledSince s a)
  | .set_internal_task c =>
    match h : s.starting c with
    | .should_start since => decidable_of_iff (since = s.installed) (by
        simp [NothingInstalledSince, h])
    | .called | .moved_input _ | .spawned _ _ | .refused => isTrue (by
        simp [NothingInstalledSince, h])
  | .move_post_turn_input _ | .test_idle _ | .set_user_task _ | .remove_task _
  | .enqueue_post_turn_item _ => isTrue trivial

end sections

/-! ## Two internal starts and a user -/

/-- The first start is for the post-turn input. -/
def origins : Bool → Origin
  | true => .start_post_turn_pending_only_turn_if_idle
  | false => .start_pending_only_turn_if_idle

def idle_session : Turns Bool Unit where
  current_task := none
  pending_input := []
  pending_post_turn_input := [()]
  starting := fun _ => .called
  installed := 0
  replaced := []

theorem idle_session_start : Start idle_session where
  called := fun _ => rfl
  none_replaced := rfl

/-- What is current, and who replaced whom. -/
def outcome (s : Turns Bool Unit) : Option (Task Bool) × List (Task Bool × Task Bool) :=
  (s.current_task, s.replaced)

/-- The post-turn start is done before a user's turn begins, and the other start then finds a
task. -/
theorem user_turn_stays_current :
    ∃ s, Reached (step origins) idle_session NothingInstalledSince s ∧ NoneDisplaced s ∧
      outcome s = (some (.user 1), [(.internal true, .user 1)]) := by
  have hrun : (([.move_post_turn_input true, .test_idle true, .set_internal_task true,
      .set_user_task 1, .test_idle false] : List (Section Bool Unit)).foldlM
        (fun s a => if NothingInstalledSince s a then step origins s a else none)
        idle_session).map outcome = some (some (.user 1), [(.internal true, .user 1)]) := by
    decide +kernel
  obtain ⟨s, hreached, hout⟩ := Reached.of_run hrun
  exact ⟨s, hreached, none_displaced_when_nothing_is_installed_since idle_session_start hreached,
    hout⟩

/-- Both starts find the session idle, a user's turn begins, and then each of them displaces the
task before it. -/
theorem user_turn_is_displaced :
    ¬ ∀ s, Reached (step origins) idle_session (fun _ _ => True) s → NoneDisplaced s := by
  intro hall
  have hrun : (([.test_idle false, .move_post_turn_input true, .test_idle true, .set_user_task 1,
      .set_internal_task false, .set_internal_task true] : List (Section Bool Unit)).foldlM
        (fun s a => if True then step origins s a else none) idle_session).map outcome =
      some (some (.internal true),
        [(.user 1, .internal false), (.internal false, .internal true)]) := by decide +kernel
  obtain ⟨s, hreached, hout⟩ := Reached.of_run hrun
  obtain ⟨-, hreplaced⟩ := Prod.mk.inj hout
  have hby := (hall s hreached).by_internal (.user 1, .internal false) (by simp [hreplaced])
  cases hby

end Turns

end Ecode.turn_tasks
