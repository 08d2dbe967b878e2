-- Every operation of the Auto Drive controller (code-auto-drive-core/src/controller.rs), those on
-- its introduction included, and what an operation does to the number of the decision, to the
-- phase and to the review guard.
import Ecode.StaleTimers

namespace Ecode.auto_drive

open AutoDriveController

def AutoRunPhase.awaiting_review : AutoRunPhase → Bool
  | .AwaitingReview _ => true
  | _ => false

namespace AutoDriveController

variable (c : AutoDriveController)

def reset_intro_timing : AutoDriveController :=
  { c with intro_started_at := none, intro_reduced_motion := false }

def mark_intro_pending : AutoDriveController := { c with intro_pending := true }

/-- `take_intro_pending`, without its answer. -/
def take_intro_pending : AutoDriveController := { c with intro_pending := false }

end AutoDriveController

/-- The operations on the introduction. -/
inductive IntroOp where
  | reset_intro_timing
  | ensure_intro_timing (reduced_motion : Bool) (now : Nat)
  | mark_intro_pending
  | take_intro_pending
  deriving DecidableEq, Repr

def IntroOp.apply (c : AutoDriveController) : IntroOp → AutoDriveController
  | .reset_intro_timing => c.reset_intro_timing
  | .ensure_intro_timing reduced_motion now => c.ensure_intro_timing reduced_motion now
  | .mark_intro_pending => c.mark_intro_pending
  | .take_intro_pending => c.take_intro_pending

inductive ControllerOp where
  | intro (op : IntroOp)
  | run (op : Op)
  deriving DecidableEq, Repr

def ControllerOp.apply (c : AutoDriveController) :
    ControllerOp → AutoDriveController × List AutoControllerEffect
  | .intro op => (op.apply c, [])
  | .run op => op.apply c

/-! ## The number of the decision -/

/-- Whether an operation drops the number of the decision: a launch, a stop or a reset does, and
so does a reset of the countdown that has no seconds to count. -/
def Op.forgets_decision (c : AutoDriveController) : Op → Bool
  | .prepare_launch _ _ _ | .stop_run _ _ | .reset => true
  | .auto_handle_restart token attempt _ _ _ => c.restart_matches token attempt
  | .launch_succeeded _ _ | .launch_failed _ _ => c.continue_mode.seconds.getD 0 == 0
  | .reset_countdown | .pause_for_edit => c.countdown_seconds.getD 0 == 0
  | .update_continue_mode mode => mode.seconds.getD 0 == 0
  | _ => false

/-- The decision that an operation schedules a prompt for. -/
def Op.schedules_decision : Op → Option Nat
  | .schedule_cli_prompt decision_seq _ => some decision_seq
  | _ => none

theorem reset_countdown_decision (c : AutoDriveController) :
    c.reset_countdown.countdown_decision_seq =
      if c.countdown_seconds.getD 0 == 0 then 0 else c.countdown_decision_seq := by
  simp [reset_countdown]

theorem transition_decision (c : AutoDriveController) (lock : Bool) (t : PhaseTransition) :
    (c.transition lock t).countdown_decision_seq = c.countdown_decision_seq := by
  unfold transition
  split <;> first | rfl | (split <;> rfl)

theorem on_recovery_attempt_decision (c : AutoDriveController) :
    c.on_recovery_attempt.countdown_decision_seq = c.countdown_decision_seq := by
  unfold on_recovery_attempt
  split <;> rfl

theorem phase_op_decision (c : AutoDriveController) (op : PhaseOp) :
    (op.apply c).countdown_decision_seq = c.countdown_decision_seq := by
  cases op with
  | set_waiting_for_response waiting =>
    simp only [PhaseOp.apply, set_waiting_for_response]
    split_ifs <;> rfl
  | set_coordinator_waiting waiting =>
    simp only [PhaseOp.apply, set_coordinator_waiting]
    split
    · rfl
    · split_ifs <;> rfl
  | on_recovery_attempt => exact on_recovery_attempt_decision c
  | set_bypass_coordinator_next_submit =>
    simp only [PhaseOp.apply, set_bypass_coordinator_next_submit]
    split <;> rfl
  | clear_bypass_coordinator_flag =>
    simp only [PhaseOp.apply, clear_bypass_coordinator_flag]
    split <;> rfl
  | transition lock t => exact transition_decision c lock t
  | _ => rfl

/-- A reset of the countdown leaves a dropped number dropped. -/
theorem reset_countdown_dropped {c : AutoDriveController} (h : c.countdown_decision_seq = 0) :
    c.reset_countdown.countdown_decision_seq = 0 := by
  rw [reset_countdown_decision, h, ite_self]

theorem prepare_launch_decision (c : AutoDriveController) (goal : Text) (options : LaunchOptions)
    (now : Nat) : (c.prepare_launch goal options now).countdown_decision_seq = 0 := by
  unfold prepare_launch
  rw [transition_decision]
  exact reset_countdown_dropped rfl

theorem stop_run_decision (c : AutoDriveController) (now : Nat) (message : Option Text) :
    (c.stop_run now message).1.countdown_decision_seq = 0 := by
  unfold stop_run
  exact transition_decision _ false .Stop

theorem auto_launch_with_goal_decision (c : AutoDriveController) (goal : Text)
    (options : LaunchOptions) (error : Option Text) (now : Nat) :
    (c.auto_launch_with_goal goal options error now).1.countdown_decision_seq = 0 := by
  have hprepared := prepare_launch_decision c goal options now
  cases error with
  | none => exact reset_countdown_dropped hprepared
  | some error => exact reset_countdown_dropped hprepared

theorem auto_handle_restart_decision (c : AutoDriveController) (token attempt : Nat)
    (reduced_motion : Bool) (error : Option Text) (now : Nat) :
    (c.auto_handle_restart token attempt reduced_motion error now).1.countdown_decision_seq =
      if c.restart_matches token attempt then 0 else c.countdown_decision_seq := by
  unfold auto_handle_restart
  by_cases hm : c.restart_matches token attempt = true
  · rw [if_pos hm, if_pos hm]
    split
    · exact stop_run_decision _ _ _
    · exact auto_launch_with_goal_decision _ _ _ _ _
  · rw [if_neg hm, if_neg hm]

theorem update_continue_mode_decision (c : AutoDriveController) (mode : AutoContinueMode) :
    (c.update_continue_mode mode).1.countdown_decision_seq =
      if mode.seconds.getD 0 == 0 then 0 else c.countdown_decision_seq := by
  refine Eq.trans ?_ (reset_countdown_decision
    { c with continue_mode := mode, countdown_override := none })
  unfold update_continue_mode
  dsimp only
  split_ifs <;> rfl

theorem handle_countdown_tick_decision (c : AutoDriveController) (id seq left : Nat) :
    (c.handle_countdown_tick id seq left).1.countdown_decision_seq = c.countdown_decision_seq := by
  unfold handle_countdown_tick
  split_ifs <;> rfl

/-- The number of the decision after an operation. -/
theorem Op.decision_spec (c : AutoDriveController) (op : Op) :
    (op.apply c).1.countdown_decision_seq =
      op.schedules_decision.getD (if op.forgets_decision c then 0 else c.countdown_decision_seq) := by
  cases op with
  | prepare_launch goal options now => exact prepare_launch_decision c goal options now
  | launch_succeeded goal now => exact reset_countdown_decision _
  | launch_failed goal error => exact reset_countdown_decision _
  | stop_run now message => exact stop_run_decision c now message
  | reset_countdown => exact reset_countdown_decision c
  | update_continue_mode mode => exact update_continue_mode_decision c mode
  | handle_countdown_tick id seq left => exact handle_countdown_tick_decision c id seq left
  | auto_handle_countdown id left => exact handle_countdown_tick_decision c id _ left
  | auto_handle_restart token attempt reduced_motion error now =>
    exact auto_handle_restart_decision c token attempt reduced_motion error now
  | accept_decision => exact on_recovery_attempt_decision _
  | pause_for_edit => exact reset_countdown_decision _
  | phase op => exact phase_op_decision c op
  | _ => rfl

end Ecode.auto_drive
