-- The Auto Drive controller (code-auto-drive-core/src/controller.rs): the phases of a
-- run, its countdowns and restarts, and the effects that it asks for.
import Ecode.Text

namespace Ecode.auto_drive

/-! ## Phases and effects -/

inductive AutoContinueMode where
  | Immediate
  | TenSeconds
  | SixtySeconds
  | Manual
  deriving DecidableEq, Repr

def AutoContinueMode.seconds : AutoContinueMode → Option Nat
  | .Immediate => some 0
  | .TenSeconds => some 10
  | .SixtySeconds => some 60
  | .Manual => none

inductive AutoRunPhase where
  | Idle
  | AwaitingGoalEntry
  | Launching
  | Active
  | PausedManual (resume_after_submit bypass_next_submit : Bool)
  | AwaitingCoordinator (prompt_ready : Bool)
  | AwaitingDiagnostics (coordinator_waiting : Bool)
  | AwaitingReview (diagnostics_pending : Bool)
  | TransientRecovery (backoff_ms : Nat)
  deriving DecidableEq, Repr

namespace AutoRunPhase

def is_active : AutoRunPhase → Bool
  | .Idle | .AwaitingGoalEntry => false
  | _ => true

def awaiting_coordinator_submit : AutoRunPhase → Bool
  | .AwaitingCoordinator true => true
  | _ => false

def in_transient_recovery : AutoRunPhase → Bool
  | .TransientRecovery _ => true
  | _ => false

def is_paused_manual : AutoRunPhase → Bool
  | .PausedManual _ _ => true
  | _ => false

def is_waiting_for_response : AutoRunPhase → Bool
  | .AwaitingDiagnostics _ => true
  | _ => false

end AutoRunPhase

inductive PhaseTransition where
  | BeginLaunch
  | LaunchSuccess
  | LaunchFailed
  | PauseForManualEdit (resume_after_submit : Bool)
  | ResumeFromManual
  | PromptReady
  | SubmitPrompt
  | AwaitDiagnostics
  | BeginReview (diagnostics_pending : Bool)
  | CompleteReview
  | TransientFailure (backoff_ms : Nat)
  | RecoveryAttempt
  | Stop
  deriving DecidableEq, Repr

/-- Times are in milliseconds. -/
structure AutoRunSummary where
  duration : Nat
  turns_completed : Nat
  message : Option Text
  goal : Option Text
  deriving DecidableEq, Repr

structure AutoRestartState where
  token : Nat
  attempt : Nat
  reason : Text
  deriving DecidableEq, Repr

inductive AutoControllerEffect where
  | RefreshUi
  | StartCountdown (countdown_id decision_seq seconds : Nat)
  | SubmitPrompt
  | LaunchStarted (goal : Text)
  | LaunchFailed (goal error : Text)
  | StopCompleted (summary : AutoRunSummary) (message : Option Text)
  | TransientPause (attempt delay : Nat) (reason : Text)
  | ScheduleRestart (token attempt delay : Nat)
  | CancelCoordinator
  | ResetHistory
  | UpdateTerminalHint (hint : Option Text)
  | SetTaskRunning (running : Bool)
  | EnsureInputFocus
  | ClearCoordinatorView
  | ShowGoalEntry
  deriving DecidableEq, Repr

/-! ## The controller -/

/-- The fields that the controller reads or returns; the texts on display are only written. -/
structure AutoDriveController where
  goal : Option Text
  countdown_id : Nat
  countdown_decision_seq : Nat
  seconds_remaining : Nat
  countdown_override : Option Nat
  review_enabled : Bool
  subagents_enabled : Bool
  cross_check_enabled : Bool
  qa_automation_enabled : Bool
  continue_mode : AutoContinueMode
  started_at : Option Nat
  turns_completed : Nat
  last_run_summary : Option AutoRunSummary
  pending_restart : Option AutoRestartState
  restart_token : Nat
  transient_restart_attempts : Nat
  intro_started_at : Option Nat
  intro_reduced_motion : Bool
  intro_pending : Bool
  elapsed_override : Option Nat
  pending_stop_message : Option Text
  last_completion_explanation : Option Text
  phase : AutoRunPhase
  /-- The controller has a review guard. -/
  review_lock : Bool
  deriving DecidableEq, Repr

/-- `u64::wrapping_add(1)`. -/
def wrapping_succ (n : Nat) : Nat := (n + 1) % 2 ^ 64

/-- `u32::saturating_add(1)`. -/
def saturating_succ (n : Nat) : Nat := min (n + 1) (2 ^ 32 - 1)

def AUTO_RESTART_BASE_DELAY : Nat := 5 * 1000

def AUTO_RESTART_MAX_DELAY : Nat := 120 * 1000

def auto_restart_delay (attempt : Nat) : Nat :=
  if attempt = 0 then min AUTO_RESTART_BASE_DELAY AUTO_RESTART_MAX_DELAY
  else min (AUTO_RESTART_BASE_DELAY * 2 ^ min (attempt - 1) 5) AUTO_RESTART_MAX_DELAY

def truncate_error (reason : Text) : Text :=
  let text := Text.trim reason
  if Text.len text ≤ 160 then text else text.take 160 ++ ['…']

namespace AutoDriveController

def default : AutoDriveController where
  goal := none
  countdown_id := 0
  countdown_decision_seq := 0
  seconds_remaining := 0
  countdown_override := none
  review_enabled := false
  subagents_enabled := false
  cross_check_enabled := false
  qa_automation_enabled := false
  continue_mode := .TenSeconds
  started_at := none
  turns_completed := 0
  last_run_summary := none
  pending_restart := none
  restart_token := 0
  transient_restart_attempts := 0
  intro_started_at := none
  intro_reduced_motion := false
  intro_pending := false
  elapsed_override := none
  pending_stop_message := none
  last_completion_explanation := none
  phase := .Idle
  review_lock := false

variable (c : AutoDriveController)

def countdown_seconds : Option Nat :=
  match c.countdown_override with
  | some seconds => some seconds
  | none => c.continue_mode.seconds

def reset_countdown : AutoDriveController :=
  let seconds_remaining := c.countdown_seconds.getD 0
  { c with
    seconds_remaining
    countdown_decision_seq := if seconds_remaining = 0 then 0 else c.countdown_decision_seq }

/-- `reset`: what is not named here goes back to its default. -/
def reset : AutoDriveController :=
  { default with
    review_enabled := c.review_enabled
    subagents_enabled := c.subagents_enabled
    cross_check_enabled := c.cross_check_enabled
    qa_automation_enabled := c.qa_automation_enabled
    continue_mode := c.continue_mode
    seconds_remaining := c.continue_mode.seconds.getD 0
    intro_pending := c.intro_pending
    intro_started_at := c.intro_started_at
    intro_reduced_motion := c.intro_reduced_motion
    elapsed_override := c.elapsed_override
    pending_stop_message := c.pending_stop_message
    last_completion_explanation := c.last_completion_explanation
    review_lock := false
    -- the phase is the default one here
    phase := if default.phase.is_active then .Active else .Idle }

/-! ## The operations on phases -/

def set_phase (phase : AutoRunPhase) : AutoDriveController := { c with phase }

def set_waiting_for_response (waiting : Bool) : AutoDriveController :=
  if waiting then { c with phase := .AwaitingDiagnostics true }
  else if c.phase.is_waiting_for_response then { c with phase := .Active }
  else c

def set_coordinator_waiting (waiting : Bool) : AutoDriveController :=
  match c.phase with
  | .AwaitingDiagnostics _ => { c with phase := .AwaitingDiagnostics waiting }
  | _ => if waiting then { c with phase := .AwaitingDiagnostics true } else c

def on_prompt_ready (prompt_ready : Bool) : AutoDriveController :=
  { c with phase := .AwaitingCoordinator prompt_ready }

def on_prompt_submitted : AutoDriveController :=
  { c with countdown_override := none, phase := .AwaitingDiagnostics true }

def on_pause_for_manual (resume_after_submit : Bool) : AutoDriveController :=
  { c with phase := .PausedManual resume_after_submit false }

def on_resume_from_manual : AutoDriveController := { c with phase := .Active }

/-- `lock` says whether `try_acquire_lock` gives a guard. -/
def on_begin_review (diagnostics_pending lock : Bool) : AutoDriveController :=
  { c with
    phase := if lock then .AwaitingReview diagnostics_pending else .Active
    review_lock := lock }

def on_complete_review : AutoDriveController := { c with phase := .Active, review_lock := false }

def on_transient_failure (backoff_ms : Nat) : AutoDriveController :=
  { c with phase := .TransientRecovery backoff_ms }

def on_recovery_attempt : AutoDriveController :=
  if c.phase.in_transient_recovery then { c with phase := .Active } else c

def set_bypass_coordinator_next_submit : AutoDriveController :=
  match c.phase with
  | .PausedManual resume_after_submit _ => { c with phase := .PausedManual resume_after_submit true }
  | _ => c

def clear_bypass_coordinator_flag : AutoDriveController :=
  match c.phase with
  | .PausedManual resume_after_submit _ =>
    { c with phase := .PausedManual resume_after_submit false }
  | _ => c

/-- `transition`, without its effects, of which there are none. -/
def transition (lock : Bool) (t : PhaseTransition) : AutoDriveController :=
  match c.phase, t with
  | .Idle, .BeginLaunch => { c with phase := .Launching }
  | .AwaitingGoalEntry, .BeginLaunch => { c with phase := .Launching }
  | .Launching, .LaunchSuccess => { c with phase := .Active }
  | .Launching, .LaunchFailed => { c with phase := .AwaitingGoalEntry }
  | .Active, .PauseForManualEdit resume_after_submit =>
    { c with phase := .PausedManual resume_after_submit false }
  | .PausedManual _ _, .ResumeFromManual => { c with phase := .Active }
  | .Active, .PromptReady => { c with phase := .AwaitingCoordinator true }
  | .AwaitingCoordinator _, .SubmitPrompt => { c with phase := .Active }
  | .Active, .AwaitDiagnostics => { c with phase := .AwaitingDiagnostics true }
  | .AwaitingDiagnostics _, .BeginReview diagnostics_pending =>
    { c with
      phase := if c.review_lock || lock then .AwaitingReview diagnostics_pending else .Active
      review_lock := c.review_lock || lock }
  | .Active, .BeginReview diagnostics_pending =>
    { c with
      phase := if c.review_lock || lock then .AwaitingReview diagnostics_pending else .Active
      review_lock := c.review_lock || lock }
  | .AwaitingReview _, .CompleteReview => { c with phase := .Active, review_lock := false }
  | phase, .TransientFailure backoff_ms =>
    if phase.is_active then { c with phase := .TransientRecovery backoff_ms } else c
  | .TransientRecovery _, .RecoveryAttempt => { c with phase := .Active }
  | _, .Stop => { c with phase := .Idle, review_lock := false }
  | _, _ => c

/-! ## Launching and stopping -/

def ensure_intro_timing (reduced_motion : Bool) (now : Nat) : AutoDriveController :=
  { c with
    intro_started_at := c.intro_started_at.or (some now)
    intro_reduced_motion := reduced_motion }

structure LaunchOptions where
  review_enabled : Bool
  subagents_enabled : Bool
  cross_check_enabled : Bool
  qa_automation_enabled : Bool
  continue_mode : AutoContinueMode
  reduced_motion : Bool
  deriving DecidableEq, Repr

/-- `prepare_launch`. An intro that was pending stays so over the reset. -/
def prepare_launch (goal : Text) (options : LaunchOptions) (now : Nat) : AutoDriveController :=
  let launched := { c.reset with
    review_enabled := options.review_enabled
    subagents_enabled := options.subagents_enabled
    cross_check_enabled := options.cross_check_enabled
    qa_automation_enabled := options.qa_automation_enabled
    continue_mode := options.continue_mode }
  let launched := launched.reset_countdown.ensure_intro_timing options.reduced_motion now
  { launched with goal := some goal }.transition false .BeginLaunch

def launch_succeeded (goal : Text) (now : Nat) :
    AutoDriveController × List AutoControllerEffect :=
  ({ { c with
      started_at := some now
      turns_completed := 0
      last_run_summary := none
      last_completion_explanation := none
      goal := some goal
      countdown_override := none }.reset_countdown with
      phase := .AwaitingDiagnostics true },
    [.LaunchStarted goal, .RefreshUi])

def launch_failed (goal error : Text) : AutoDriveController × List AutoControllerEffect :=
  ({ { c with goal := none, intro_pending := true, countdown_override := none }.reset_countdown with
      phase := .AwaitingGoalEntry },
    [.LaunchFailed goal error, .ShowGoalEntry, .RefreshUi])

def stop_run (now : Nat) (message : Option Text) :
    AutoDriveController × List AutoControllerEffect :=
  let summary : AutoRunSummary := {
    duration := (c.started_at.map fun start => now - start).getD 0
    turns_completed := c.turns_completed
    message
    goal := c.goal }
  ({ { c.reset with last_run_summary := some summary }.transition false .Stop with
      phase := .AwaitingGoalEntry
      pending_stop_message := none },
    [.CancelCoordinator, .ResetHistory, .ClearCoordinatorView, .UpdateTerminalHint none,
      .SetTaskRunning false, .EnsureInputFocus, .StopCompleted summary message, .RefreshUi])

/-! ## Countdowns and restarts -/

def pause_for_transient_failure (reason : Text) :
    AutoDriveController × List AutoControllerEffect :=
  let attempt := saturating_succ c.transient_restart_attempts
  let delay := auto_restart_delay attempt
  let token := wrapping_succ c.restart_token
  let reason := truncate_error reason
  ({ c with
      phase := .TransientRecovery delay
      transient_restart_attempts := attempt
      restart_token := token
      pending_restart := some { token, attempt, reason } },
    [.CancelCoordinator, .SetTaskRunning false,
      .UpdateTerminalHint (some "Press Esc to exit Auto Drive".toList),
      .TransientPause attempt delay reason, .ScheduleRestart token attempt delay, .RefreshUi])

/-- The effect that starts the countdown with the id of the controller, when there is one. -/
def start_countdown : List AutoControllerEffect :=
  match c.countdown_seconds with
  | some seconds => [.StartCountdown c.countdown_id c.countdown_decision_seq seconds]
  | none => []

/-- `schedule_cli_prompt`; the prompt and its model are only carried to the display. -/
def schedule_cli_prompt (decision_seq : Nat) (countdown_override : Option Nat) :
    AutoDriveController × List AutoControllerEffect :=
  let awaiting := { c with
    phase := .AwaitingCoordinator true
    countdown_override }.reset_countdown
  let scheduled := { awaiting with
    countdown_id := wrapping_succ awaiting.countdown_id
    countdown_decision_seq := decision_seq
    seconds_remaining := awaiting.countdown_seconds.getD 0 }
  (scheduled, .RefreshUi :: scheduled.start_countdown)

def update_continue_mode (mode : AutoContinueMode) :
    AutoDriveController × List AutoControllerEffect :=
  let updated := { c with continue_mode := mode, countdown_override := none }.reset_countdown
  let updated := { updated with seconds_remaining := updated.countdown_seconds.getD 0 }
  if updated.phase.awaiting_coordinator_submit ∧ ¬ updated.phase.is_paused_manual then
    let counting := { updated with countdown_id := wrapping_succ updated.countdown_id }
    (counting, .RefreshUi :: counting.start_countdown)
  else (updated, [.RefreshUi])

def handle_countdown_tick (countdown_id decision_seq seconds_left : Nat) :
    AutoDriveController × List AutoControllerEffect :=
  if ¬ c.phase.is_active ∨ countdown_id ≠ c.countdown_id ∨
      decision_seq ≠ c.countdown_decision_seq ∨ ¬ c.phase.awaiting_coordinator_submit ∨
      c.phase.is_paused_manual then (c, [])
  else
    ({ c with seconds_remaining := seconds_left },
      if seconds_left = 0 then [.SubmitPrompt] else [.RefreshUi])

/-! ## What the terminal does with the controller (tui/src/chatwidget.rs) -/

/-- `auto_handle_countdown`: the tick comes with the id of its countdown only. -/
def auto_handle_countdown (countdown_id seconds_left : Nat) :
    AutoDriveController × List AutoControllerEffect :=
  c.handle_countdown_tick countdown_id c.countdown_decision_seq seconds_left

/-- `auto_launch_with_goal`, where `error` is what `start_auto_coordinator` fails with. -/
def auto_launch_with_goal (goal : Text) (options : LaunchOptions) (error : Option Text)
    (now : Nat) : AutoDriveController × List AutoControllerEffect :=
  match error with
  | none => (c.prepare_launch goal options now).launch_succeeded goal now
  | some error => (c.prepare_launch goal options now).launch_failed goal error

/-- Whether `auto_handle_restart` takes this restart for the pending one. -/
def restart_matches (token attempt : Nat) : Bool :=
  c.phase.is_active && c.phase.in_transient_recovery &&
    match c.pending_restart with
    | some restart => restart.token == token && restart.attempt == attempt
    | none => false

/-- `auto_handle_restart`: the run is launched again, with its turns, start and attempts. -/
def auto_handle_restart (token attempt : Nat) (reduced_motion : Bool) (error : Option Text)
    (now : Nat) : AutoDriveController × List AutoControllerEffect :=
  if c.restart_matches token attempt then
    match c.goal with
    | none =>
      { c with pending_restart := none }.on_recovery_attempt.stop_run now
        (some "Auto Drive restart aborted.".toList)
    | some goal =>
      let recovered := { { c with pending_restart := none }.on_recovery_attempt with
        restart_token := token }
      let options : LaunchOptions := {
        review_enabled := c.review_enabled
        subagents_enabled := c.subagents_enabled
        cross_check_enabled := c.cross_check_enabled
        qa_automation_enabled := c.qa_automation_enabled
        continue_mode := c.continue_mode
        reduced_motion }
      let launched := recovered.auto_launch_with_goal goal options error now
      ({ launched.1 with
          turns_completed :=
            if c.turns_completed > 0 then c.turns_completed else launched.1.turns_completed
          started_at := c.started_at.or launched.1.started_at
          transient_restart_attempts := c.transient_restart_attempts },
        launched.2)
  else (c, [])

/-- What `auto_handle_decision` does first with a decision that did not fail. -/
def accept_decision : AutoDriveController :=
  { { c with transient_restart_attempts := 0 }.on_recovery_attempt with pending_restart := none }

/-- The pause for an edit of the prompt: running countdowns no longer count. -/
def pause_for_edit : AutoDriveController :=
  let paused := (c.on_pause_for_manual true).set_bypass_coordinator_next_submit
  { paused with countdown_id := wrapping_succ paused.countdown_id }.reset_countdown

end AutoDriveController

end Ecode.auto_drive
