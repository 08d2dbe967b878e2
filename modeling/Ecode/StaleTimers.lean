-- Runs of Auto Drive with timers in flight: which countdowns and restarts were started,
-- in which launch, and that those of an earlier launch have no effect.
import Ecode.AutoDrive
import Ecode.Runs

open Ecode.runs

namespace Ecode.auto_drive

open AutoDriveController

/-! ## Operations -/

/-- The operations that change the phase and the review guard, and at most drop an override. -/
inductive PhaseOp where
  | set_phase (phase : AutoRunPhase)
  | set_waiting_for_response (waiting : Bool)
  | set_coordinator_waiting (waiting : Bool)
  | on_prompt_ready (prompt_ready : Bool)
  | on_prompt_submitted
  | on_pause_for_manual (resume_after_submit : Bool)
  | on_resume_from_manual
  | on_begin_review (diagnostics_pending lock : Bool)
  | on_complete_review
  | on_transient_failure (backoff_ms : Nat)
  | on_recovery_attempt
  | set_bypass_coordinator_next_submit
  | clear_bypass_coordinator_flag
  | transition (lock : Bool) (t : PhaseTransition)
  deriving DecidableEq, Repr

def PhaseOp.apply (c : AutoDriveController) : PhaseOp → AutoDriveController
  | .set_phase phase => c.set_phase phase
  | .set_waiting_for_response waiting => c.set_waiting_for_response waiting
  | .set_coordinator_waiting waiting => c.set_coordinator_waiting waiting
  | .on_prompt_ready prompt_ready => c.on_prompt_ready prompt_ready
  | .on_prompt_submitted => c.on_prompt_submitted
  | .on_pause_for_manual resume_after_submit => c.on_pause_for_manual resume_after_submit
  | .on_resume_from_manual => c.on_resume_from_manual
  | .on_begin_review diagnostics_pending lock => c.on_begin_review diagnostics_pending lock
  | .on_complete_review => c.on_complete_review
  | .on_transient_failure backoff_ms => c.on_transient_failure backoff_ms
  | .on_recovery_attempt => c.on_recovery_attempt
  | .set_bypass_coordinator_next_submit => c.set_bypass_coordinator_next_submit
  | .clear_bypass_coordinator_flag => c.clear_bypass_coordinator_flag
  | .transition lock t => c.transition lock t

inductive Op where
  | prepare_launch (goal : Text) (options : LaunchOptions) (now : Nat)
  | launch_succeeded (goal : Text) (now : Nat)
  | launch_failed (goal error : Text)
  | stop_run (now : Nat) (message : Option Text)
  | reset
  | reset_countdown
  | pause_for_transient_failure (reason : Text)
  | schedule_cli_prompt (decision_seq : Nat) (countdown_override : Option Nat)
  | update_continue_mode (mode : AutoContinueMode)
  | handle_countdown_tick (countdown_id decision_seq seconds_left : Nat)
  | auto_handle_countdown (countdown_id seconds_left : Nat)
  | auto_handle_restart (token attempt : Nat) (reduced_motion : Bool) (error : Option Text)
      (now : Nat)
  | accept_decision
  | pause_for_edit
  | phase (op : PhaseOp)
  deriving DecidableEq, Repr

namespace Op

/-- The controller after an operation, and the effects that it asks for. -/
def apply (c : AutoDriveController) : Op → AutoDriveController × List AutoControllerEffect
  | prepare_launch goal options now => (c.prepare_launch goal options now, [])
  | launch_succeeded goal now => c.launch_succeeded goal now
  | launch_failed goal error => c.launch_failed goal error
  | stop_run now message => c.stop_run now message
  | reset => (c.reset, [])
  | reset_countdown => (c.reset_countdown, [])
  | pause_for_transient_failure reason => c.pause_for_transient_failure reason
  | schedule_cli_prompt decision_seq countdown_override =>
    c.schedule_cli_prompt decision_seq countdown_override
  | update_continue_mode mode => c.update_continue_mode mode
  | handle_countdown_tick countdown_id decision_seq seconds_left =>
    c.handle_countdown_tick countdown_id decision_seq seconds_left
  | auto_handle_countdown countdown_id seconds_left =>
    c.auto_handle_countdown countdown_id seconds_left
  | auto_handle_restart token attempt reduced_motion error now =>
    c.auto_handle_restart token attempt reduced_motion error now
  | accept_decision => (c.accept_decision, [])
  | pause_for_edit => (c.pause_for_edit, [])
  | phase op => (op.apply c, [])

/-- Whether an operation launches a run. -/
def launches (c : AutoDriveController) : Op → Bool
  | prepare_launch _ _ _ => true
  | auto_handle_restart token attempt _ _ _ => c.restart_matches token attempt && c.goal.isSome
  | _ => false

/-- The countdown id that an operation takes: the next one, or that of a reset. -/
def takes_countdown_id (c : AutoDriveController) : Op → Option Nat
  | prepare_launch _ _ _ => some 0
  | stop_run _ _ => some 0
  | reset => some 0
  | auto_handle_restart token attempt _ _ _ =>
    if c.restart_matches token attempt then some 0 else none
  | schedule_cli_prompt _ _ => some (wrapping_succ c.countdown_id)
  | pause_for_edit => some (wrapping_succ c.countdown_id)
  | update_continue_mode _ =>
    if c.phase.awaiting_coordinator_submit then some (wrapping_succ c.countdown_id) else none
  | _ => none

/-- The restart token that an operation takes. -/
def takes_restart_token (c : AutoDriveController) : Op → Option Nat
  | pause_for_transient_failure _ => some (wrapping_succ c.restart_token)
  | _ => none

end Op

/-! ## What the operations do to ids and restarts -/

/-- Two controllers with the same countdown id and the same pending restart. -/
def SameTimers (c d : AutoDriveController) : Prop :=
  c.countdown_id = d.countdown_id ∧ c.pending_restart = d.pending_restart

theorem same_timers (c : AutoDriveController) : SameTimers c c := ⟨rfl, rfl⟩

theorem transition_same (c : AutoDriveController) (lock : Bool) (t : PhaseTransition) :
    SameTimers (c.transition lock t) c := by
  unfold transition
  split <;> first | exact ⟨rfl, rfl⟩ | (split <;> exact ⟨rfl, rfl⟩)

theorem on_recovery_attempt_same (c : AutoDriveController) :
    SameTimers c.on_recovery_attempt c := by
  unfold on_recovery_attempt
  split <;> exact ⟨rfl, rfl⟩

theorem set_bypass_same (c : AutoDriveController) :
    SameTimers c.set_bypass_coordinator_next_submit c := by
  unfold set_bypass_coordinator_next_submit
  split <;> exact ⟨rfl, rfl⟩

/-- The operations on phases leave the timers alone. -/
theorem phase_op_same (c : AutoDriveController) (op : PhaseOp) : SameTimers (op.apply c) c := by
  cases op with
  | set_waiting_for_response waiting =>
    simp only [PhaseOp.apply, set_waiting_for_response]
    split_ifs <;> exact ⟨rfl, rfl⟩
  | set_coordinator_waiting waiting =>
    simp only [PhaseOp.apply, set_coordinator_waiting]
    split
    · exact ⟨rfl, rfl⟩
    · split_ifs <;> exact ⟨rfl, rfl⟩
  | on_recovery_attempt => exact on_recovery_attempt_same c
  | set_bypass_coordinator_next_submit => exact set_bypass_same c
  | clear_bypass_coordinator_flag =>
    simp only [PhaseOp.apply, clear_bypass_coordinator_flag]
    split <;> exact ⟨rfl, rfl⟩
  | transition lock t => exact transition_same c lock t
  | _ => exact ⟨rfl, rfl⟩

/-- A launch begins with the countdown id 0 and no restart. -/
theorem prepare_launch_timers (c : AutoDriveController) (goal : Text) (options : LaunchOptions)
    (now : Nat) : (c.prepare_launch goal options now).countdown_id = 0 ∧
      (c.prepare_launch goal options now).pending_restart = none := by
  unfold prepare_launch
  obtain ⟨hid, hrestart⟩ := transition_same _ false .BeginLaunch
  exact ⟨hid, hrestart⟩

theorem stop_run_timers (c : AutoDriveController) (now : Nat) (message : Option Text) :
    (c.stop_run now message).1.countdown_id = 0 ∧
      (c.stop_run now message).1.pending_restart = none := by
  unfold stop_run
  obtain ⟨hid, hrestart⟩ := transition_same _ false .Stop
  exact ⟨hid, hrestart⟩

theorem auto_launch_with_goal_timers (c : AutoDriveController) (goal : Text)
    (options : LaunchOptions) (error : Option Text) (now : Nat) :
    (c.auto_launch_with_goal goal options error now).1.countdown_id = 0 ∧
      (c.auto_launch_with_goal goal options error now).1.pending_restart = none := by
  cases error <;> exact prepare_launch_timers c goal options now

/-- A restart that does not match does nothing, one that matches begins anew. -/
theorem auto_handle_restart_timers (c : AutoDriveController) (token attempt : Nat)
    (reduced_motion : Bool) (error : Option Text) (now : Nat) :
    (c.restart_matches token attempt = false ∧
      c.auto_handle_restart token attempt reduced_motion error now = (c, [])) ∨
    (c.restart_matches token attempt = true ∧
      (c.auto_handle_restart token attempt reduced_motion error now).1.countdown_id = 0 ∧
      (c.auto_handle_restart token attempt reduced_motion error now).1.pending_restart = none) := by
  unfold auto_handle_restart
  rcases hm : c.restart_matches token attempt with _ | _
  · exact .inl ⟨rfl, rfl⟩
  · refine .inr ⟨rfl, ?_⟩
    rw [if_pos rfl]
    split
    · exact stop_run_timers _ _ _
    · exact auto_launch_with_goal_timers _ _ _ _ _

/-- A new countdown is started only for a prompt that waits to be submitted. -/
theorem update_continue_mode_timers (c : AutoDriveController) (mode : AutoContinueMode) :
    (c.update_continue_mode mode).1.countdown_id =
        (if c.phase.awaiting_coordinator_submit then wrapping_succ c.countdown_id
          else c.countdown_id) ∧
      (c.update_continue_mode mode).1.pending_restart = c.pending_restart := by
  have hpaused : c.phase.awaiting_coordinator_submit = true → ¬ c.phase.is_paused_manual := by
    cases c.phase with
    | PausedManual => simp [AutoRunPhase.awaiting_coordinator_submit]
    | _ => simp [AutoRunPhase.is_paused_manual]
  unfold update_continue_mode
  by_cases h : c.phase.awaiting_coordinator_submit = true
  · rw [if_pos ⟨h, hpaused h⟩, if_pos h]
    exact ⟨rfl, rfl⟩
  · rw [if_neg fun hboth => h hboth.1, if_neg h]
    exact ⟨rfl, rfl⟩

theorem handle_countdown_tick_same (c : AutoDriveController) (id seq left : Nat) :
    SameTimers (c.handle_countdown_tick id seq left).1 c := by
  unfold handle_countdown_tick
  split_ifs <;> exact ⟨rfl, rfl⟩

namespace Op

/-- What an operation does to the countdown id and to the pending restart. -/
structure Spec (c : AutoDriveController) (op : Op) : Prop where
  id : (op.apply c).1.countdown_id = (op.takes_countdown_id c).getD c.countdown_id
  restart : ∀ p ∈ (op.apply c).1.pending_restart,
    p ∈ c.pending_restart ∨ op.takes_restart_token c = some p.token
  launch : op.launches c = true →
    op.takes_countdown_id c = some 0 ∧ (op.apply c).1.pending_restart = none

/-- An operation that launches nothing and takes nothing. -/
theorem Spec.of_same {c : AutoDriveController} {op : Op} (h : SameTimers (op.apply c).1 c)
    (hid : op.takes_countdown_id c = none) (hlaunch : op.launches c = false) : Spec c op where
  id := by
    rw [h.1, hid]
    rfl
  restart := fun p hp => .inl (h.2 ▸ hp)
  launch := by
    intro hl
    rw [hlaunch] at hl
    cases hl

/-- An operation that begins anew. -/
theorem Spec.of_reset {c : AutoDriveController} {op : Op}
    (h : (op.apply c).1.countdown_id = 0 ∧ (op.apply c).1.pending_restart = none)
    (hid : op.takes_countdown_id c = some 0) : Spec c op where
  id := by
    rw [h.1, hid]
    rfl
  restart := by simp [h.2]
  launch := fun _ => ⟨hid, h.2⟩

theorem spec (c : AutoDriveController) (op : Op) : Spec c op := by
  cases op with
  | prepare_launch goal options now => exact .of_reset (prepare_launch_timers c goal options now) rfl
  | launch_succeeded goal now => exact .of_same ⟨rfl, rfl⟩ rfl rfl
  | launch_failed goal error => exact .of_same ⟨rfl, rfl⟩ rfl rfl
  | stop_run now message => exact .of_reset (stop_run_timers c now message) rfl
  | reset => exact .of_reset ⟨rfl, rfl⟩ rfl
  | reset_countdown => exact .of_same ⟨rfl, rfl⟩ rfl rfl
  | pause_for_transient_failure reason =>
    refine ⟨rfl, ?_, by rintro ⟨⟩⟩
    rintro p ⟨⟩
    exact .inr rfl
  | schedule_cli_prompt decision_seq countdown_override =>
    exact ⟨rfl, fun p hp => .inl hp, by rintro ⟨⟩⟩
  | update_continue_mode mode =>
    obtain ⟨hid, hrestart⟩ := update_continue_mode_timers c mode
    refine ⟨?_, fun p hp => .inl (hrestart ▸ hp), by rintro ⟨⟩⟩
    simp only [apply, takes_countdown_id, hid]
    split <;> rfl
  | handle_countdown_tick id seq left =>
    exact .of_same (handle_countdown_tick_same c id seq left) rfl rfl
  | auto_handle_countdown id left =>
    exact .of_same (handle_countdown_tick_same c id _ left) rfl rfl
  | auto_handle_restart token attempt reduced_motion error now =>
    rcases auto_handle_restart_timers c token attempt reduced_motion error now with
      ⟨hm, heq⟩ | ⟨hm, htimers⟩
    · refine .of_same ?_ (by simp [takes_countdown_id, hm]) (by simp [launches, hm])
      simp only [apply, heq]
      exact same_timers c
    · exact .of_reset htimers (by simp [takes_countdown_id, hm])
  | accept_decision =>
    refine ⟨(on_recovery_attempt_same _).1, ?_, by rintro ⟨⟩⟩
    rintro p ⟨⟩
  | pause_for_edit =>
    obtain ⟨hid, hrestart⟩ := set_bypass_same (c.on_pause_for_manual true)
    exact ⟨congrArg wrapping_succ hid, fun p hp => .inl (hrestart ▸ hp), by rintro ⟨⟩⟩
  | phase op => exact .of_same (phase_op_same c op) rfl rfl

end Op

/-! ## Runs -/

/-- The id of the countdown that an effect starts. -/
def AutoControllerEffect.countdown : AutoControllerEffect → Option Nat
  | .StartCountdown countdown_id _ _ => some countdown_id
  | _ => none

/-- The token of the restart that an effect schedules. -/
def AutoControllerEffect.restart : AutoControllerEffect → Option Nat
  | .ScheduleRestart token _ _ => some token
  | _ => none

/-- The controller with the number of launches and the timers that were started. -/
structure Drive where
  auto_state : AutoDriveController
  launch : Nat
  /-- The countdowns: in which launch, and under which id. -/
  countdowns : List (Nat × Nat)
  /-- The restarts: in which launch, and with which token. -/
  restarts : List (Nat × Nat)
  deriving DecidableEq, Repr

namespace Drive

def start : Drive := ⟨.default, 0, [], []⟩

/-- The number of the launch that is going on after an operation. -/
def launch_after (s : Drive) (op : Op) : Nat :=
  if op.launches s.auto_state then s.launch + 1 else s.launch

def step (s : Drive) (op : Op) : Option Drive :=
  let launch := s.launch_after op
  let result := op.apply s.auto_state
  some {
    auto_state := result.1
    launch
    countdowns := s.countdowns ++
      (result.2.filterMap AutoControllerEffect.countdown).map (fun id => (launch, id))
    restarts := s.restarts ++
      (result.2.filterMap AutoControllerEffect.restart).map (fun token => (launch, token)) }

/-- The ticks and the restarts of earlier launches do nothing, whatever else comes with them. -/
structure StaleTimersDead (s : Drive) : Prop where
  ticks : ∀ timer ∈ s.countdowns, timer.1 < s.launch → ∀ decision_seq seconds_left,
    s.auto_state.handle_countdown_tick timer.2 decision_seq seconds_left = (s.auto_state, [])
  restarts : ∀ timer ∈ s.restarts, timer.1 < s.launch → ∀ attempt reduced_motion error now,
    s.auto_state.auto_handle_restart timer.2 attempt reduced_motion error now =
      (s.auto_state, [])

/-- An operation takes no countdown id and no restart token that a timer of an earlier launch
has. -/
def TakesFresh (s : Drive) (op : Op) : Prop :=
  (∀ id ∈ op.takes_countdown_id s.auto_state, ∀ timer ∈ s.countdowns,
    timer.1 < s.launch_after op → timer.2 ≠ id) ∧
  ∀ token ∈ op.takes_restart_token s.auto_state, ∀ timer ∈ s.restarts,
    timer.1 < s.launch_after op → timer.2 ≠ token

/-- What holds while every operation takes fresh ids and tokens. -/
structure Fresh (s : Drive) : Prop where
  countdowns_launched : ∀ timer ∈ s.countdowns, timer.1 ≤ s.launch
  restarts_launched : ∀ timer ∈ s.restarts, timer.1 ≤ s.launch
  countdown_id : ∀ timer ∈ s.countdowns, timer.1 < s.launch →
    timer.2 ≠ s.auto_state.countdown_id
  restart_token : ∀ p ∈ s.auto_state.pending_restart, ∀ timer ∈ s.restarts,
    timer.1 < s.launch → timer.2 ≠ p.token

theorem fresh_start : Fresh start := ⟨by simp [start], by simp [start], by simp [start],
  by simp [start]⟩

theorem Fresh.stale_timers_dead {s : Drive} (h : Fresh s) : StaleTimersDead s where
  ticks := by
    intro timer htimer hstale decision_seq seconds_left
    unfold handle_countdown_tick
    exact if_pos (.inr (.inl (h.countdown_id timer htimer hstale)))
  restarts := by
    intro timer htimer hstale attempt reduced_motion error now
    unfold auto_handle_restart
    refine if_neg ?_
    rw [Bool.not_eq_true]
    unfold restart_matches
    rcases hp : s.auto_state.pending_restart with _ | p
    · simp
    · have hne := h.restart_token p hp timer htimer hstale
      simp [Ne.symm hne]

theorem le_launch_after (s : Drive) (op : Op) : s.launch ≤ s.launch_after op := by
  unfold launch_after
  split <;> omega

/-- A timer of a list to which timers of the present launch were added is old when it is stale. -/
theorem old_of_stale {timers : List (Nat × Nat)} {ids : List Nat} {launch : Nat}
    {timer : Nat × Nat} (h : timer ∈ timers ++ ids.map (fun id => (launch, id)))
    (hstale : timer.1 < launch) : timer ∈ timers := by
  rcases List.mem_append.mp h with hold | hnew
  · exact hold
  · obtain ⟨id, -, rfl⟩ := List.mem_map.mp hnew
    exact absurd hstale (lt_irrefl _)

theorem launched_append {timers : List (Nat × Nat)} {ids : List Nat} {launch launch' : Nat}
    (h : ∀ timer ∈ timers, timer.1 ≤ launch) (hle : launch ≤ launch') :
    ∀ timer ∈ timers ++ ids.map (fun id => (launch', id)), timer.1 ≤ launch' := by
  intro timer htimer
  rcases List.mem_append.mp htimer with hold | hnew
  · exact (h timer hold).trans hle
  · obtain ⟨id, -, rfl⟩ := List.mem_map.mp hnew
    exact le_refl _

theorem step_fresh {s t : Drive} {op : Op} (h : Fresh s) (hok : TakesFresh s op)
    (hstep : step s op = some t) : Fresh t := by
  simp only [step, Option.some.injEq] at hstep
  subst hstep
  have hspec := op.spec s.auto_state
  have hle := le_launch_after s op
  refine ⟨launched_append h.countdowns_launched hle, launched_append h.restarts_launched hle,
    ?_, ?_⟩
  · intro timer htimer hstale
    have hold := old_of_stale htimer hstale
    change timer.2 ≠ (op.apply s.auto_state).1.countdown_id
    rw [hspec.id]
    rcases htakes : op.takes_countdown_id s.auto_state with _ | id
    · -- nothing is launched, so the timer was stale before
      have hnot : op.launches s.auto_state = false := by
        rw [← Bool.not_eq_true]
        intro hl
        rw [(hspec.launch hl).1] at htakes
        cases htakes
      have hsame : s.launch_after op = s.launch := by simp [launch_after, hnot]
      exact h.countdown_id timer hold (hsame ▸ hstale)
    · exact hok.1 id htakes timer hold hstale
  · intro p hp timer htimer hstale
    have hold := old_of_stale htimer hstale
    rcases hspec.restart p hp with hbefore | htakes
    · have hnot : op.launches s.auto_state = false := by
        rw [← Bool.not_eq_true]
        intro hl
        rw [(hspec.launch hl).2] at hp
        cases hp
      have hsame : s.launch_after op = s.launch := by simp [launch_after, hnot]
      exact h.restart_token p hbefore timer hold (hsame ▸ hstale)
    · exact hok.2 p.token htakes timer hold hstale

/-- For every sequence of operations, with the ticks and the restarts delivered at any time: while
every countdown id and every restart token that the controller takes is one that no timer of an
earlier launch has, the timers of earlier launches have no effect. -/
theorem stale_timers_dead_when_ids_are_fresh {s : Drive} (h : Reached step start TakesFresh s) :
    StaleTimersDead s := by
  apply Fresh.stale_timers_dead
  exact h.invariant fresh_start fun _ _ _ hs hok ht => step_fresh hs hok ht

instance (s : Drive) (op : Op) : Decidable (TakesFresh s op) :=
  inferInstanceAs (Decidable (_ ∧ _))

/-! ## Two launches -/

def manual : LaunchOptions := ⟨false, false, false, false, .Manual, false⟩

def ten_seconds : LaunchOptions := { manual with continue_mode := .TenSeconds }

/-- A launch in manual mode whose only countdown is its second, and a launch after it. -/
def second_countdown_only : List Op :=
  [.prepare_launch "goal".toList manual 0, .schedule_cli_prompt 1 none,
    .update_continue_mode .TenSeconds, .pause_for_transient_failure "error".toList,
    .stop_run 0 none, .prepare_launch "goal".toList ten_seconds 0, .schedule_cli_prompt 1 none]

/-- The timers that were started, and the countdown that goes on. -/
def timers (s : Drive) : Nat × List (Nat × Nat) × List (Nat × Nat) × Nat :=
  (s.launch, s.countdowns, s.restarts, s.auto_state.countdown_id)

theorem second_countdown_is_dead :
    ∃ s, Reached step start TakesFresh s ∧ s.timers = (2, [(1, 2), (2, 1)], [(1, 1)], 1) ∧
      StaleTimersDead s := by
  have hrun : (second_countdown_only.foldlM
      (fun s op => if TakesFresh s op then step s op else none) start).map timers =
        some (2, [(1, 2), (2, 1)], [(1, 1)], 1) := by
    decide +kernel
  obtain ⟨s, hreached, htimers⟩ := Reached.of_run hrun
  exact ⟨s, hreached, htimers, stale_timers_dead_when_ids_are_fresh hreached⟩

/-- Two launches that each start a first countdown, and two that each fail once. -/
def first_countdowns : List Op :=
  [.prepare_launch "goal".toList ten_seconds 0, .schedule_cli_prompt 1 none, .stop_run 0 none,
    .prepare_launch "goal".toList ten_seconds 0, .schedule_cli_prompt 1 none]

def first_failures : List Op :=
  [.prepare_launch "goal".toList ten_seconds 0, .pause_for_transient_failure "error".toList,
    .stop_run 0 none, .prepare_launch "goal".toList ten_seconds 0,
    .pause_for_transient_failure "error".toList]

/-- The last tick of the first launch submits the prompt of the second; and the restart of the
first launch restarts the second. -/
theorem first_timers_act_in_the_second_launch :
    (∃ s, first_countdowns.foldlM step start = some s ∧ ((1, 1) ∈ s.countdowns ∧ 1 < s.launch) ∧
      (s.auto_state.handle_countdown_tick 1 1 0).2 = [.SubmitPrompt] ∧ ¬ StaleTimersDead s) ∧
    ∃ s, first_failures.foldlM step start = some s ∧ ((1, 1) ∈ s.restarts ∧ 1 < s.launch) ∧
      (s.auto_state.auto_handle_restart 1 1 false none 0).2 =
        [.LaunchStarted "goal".toList, .RefreshUi] ∧ ¬ StaleTimersDead s := by
  refine ⟨⟨_, rfl, by decide +kernel, by decide +kernel, ?_⟩,
    ⟨_, rfl, by decide +kernel, by decide +kernel, ?_⟩⟩
  · intro hdead
    have hnothing := hdead.ticks (1, 1) (by decide +kernel) (by decide +kernel) 1 0
    exact absurd (congrArg Prod.snd hnothing) (by decide +kernel)
  · intro hdead
    have hnothing := hdead.restarts (1, 1) (by decide +kernel) (by decide +kernel) 1 false none 0
    exact absurd (congrArg Prod.snd hnothing) (by decide +kernel)

end Drive

end Ecode.auto_drive
