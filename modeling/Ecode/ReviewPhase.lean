-- The review guard and the phase of the Auto Drive controller: which operations leave the guard
-- held exactly while a review is awaited.
import Ecode.ControllerOps

open Ecode.runs

namespace Ecode.auto_drive

open AutoDriveController

/-- The controller has a review guard exactly while it awaits a review. -/
def LockFollowsPhase (c : AutoDriveController) : Prop :=
  c.review_lock = true ↔ c.phase.awaiting_review = true

instance (c : AutoDriveController) : Decidable (LockFollowsPhase c) :=
  inferInstanceAs (Decidable (_ ↔ _))

/-! ## Operations that set a phase and leave the guard as it is -/

/-- The phase that an operation on phases sets whatever guard there is. -/
def PhaseOp.sets_phase (c : AutoDriveController) : PhaseOp → Option AutoRunPhase
  | .set_phase phase => some phase
  | .set_waiting_for_response true => some (.AwaitingDiagnostics true)
  | .set_coordinator_waiting true => some (.AwaitingDiagnostics true)
  | .on_prompt_ready prompt_ready => some (.AwaitingCoordinator prompt_ready)
  | .on_prompt_submitted => some (.AwaitingDiagnostics true)
  | .on_pause_for_manual resume_after_submit => some (.PausedManual resume_after_submit false)
  | .on_resume_from_manual => some .Active
  | .on_transient_failure backoff_ms => some (.TransientRecovery backoff_ms)
  | .transition _ (.TransientFailure backoff_ms) =>
    if c.phase.is_active then some (.TransientRecovery backoff_ms) else none
  | _ => none

/-- The phase that an operation sets whatever guard there is. -/
def Op.sets_phase (c : AutoDriveController) : Op → Option AutoRunPhase
  | .launch_succeeded _ _ => some (.AwaitingDiagnostics true)
  | .launch_failed _ _ => some .AwaitingGoalEntry
  | .pause_for_transient_failure _ =>
    some (.TransientRecovery (auto_restart_delay (saturating_succ c.transient_restart_attempts)))
  | .schedule_cli_prompt _ _ => some (.AwaitingCoordinator true)
  | .pause_for_edit => some (.PausedManual true true)
  | .phase op => op.sets_phase c
  | _ => none

def ControllerOp.sets_phase (c : AutoDriveController) : ControllerOp → Option AutoRunPhase
  | .intro _ => none
  | .run op => op.sets_phase c

/-- A phase that is set whatever guard there is stays on the same side of a review. -/
def StaysOnSide (c : AutoDriveController) (op : ControllerOp) : Prop :=
  ∀ phase ∈ op.sets_phase c, phase.awaiting_review = c.phase.awaiting_review

instance (c : AutoDriveController) (op : ControllerOp) : Decidable (StaysOnSide c op) :=
  inferInstanceAs (Decidable (∀ _ ∈ _, _))

/-! ## What an operation does to the guard and the phase -/

/-- The guard is kept and the phase is set, or both are as they were, or the two are made to
agree. -/
inductive ReviewSpec (c d : AutoDriveController) : Option AutoRunPhase → Prop where
  | sets {phase : AutoRunPhase} : d.phase = phase → d.review_lock = c.review_lock →
      ReviewSpec c d (some phase)
  | agrees : (LockFollowsPhase c → LockFollowsPhase d) → ReviewSpec c d none

theorem ReviewSpec.same {c d : AutoDriveController}
    (hphase : d.phase.awaiting_review = c.phase.awaiting_review)
    (hlock : d.review_lock = c.review_lock) : ReviewSpec c d none := by
  refine .agrees fun h => ?_
  unfold LockFollowsPhase at h ⊢
  rw [hphase, hlock]
  exact h

/-- Without a guard and outside a review the two agree. -/
theorem ReviewSpec.free {c d : AutoDriveController} (hphase : d.phase.awaiting_review = false)
    (hlock : d.review_lock = false) : ReviewSpec c d none := by
  refine .agrees fun _ => ?_
  simp [LockFollowsPhase, hphase, hlock]

/-- A review is entered with a guard and left without one. -/
theorem ReviewSpec.guarded {c d : AutoDriveController} {lock : Bool} {phase : AutoRunPhase}
    (hreview : phase.awaiting_review = true)
    (hphase : d.phase = if lock then phase else .Active) (hlock : d.review_lock = lock) :
    ReviewSpec c d none := by
  refine .agrees fun _ => ?_
  unfold LockFollowsPhase
  rw [hphase, hlock]
  cases lock
  · simp [AutoRunPhase.awaiting_review]
  · simp [hreview]

theorem transition_review (c : AutoDriveController) (lock : Bool) (t : PhaseTransition) :
    ReviewSpec c (c.transition lock t) ((PhaseOp.transition lock t).sets_phase c) := by
  cases t with
  | TransientFailure backoff_ms =>
    have hfailed : c.transition lock (.TransientFailure backoff_ms) =
        if c.phase.is_active then { c with phase := .TransientRecovery backoff_ms } else c := by
      unfold transition
      cases c.phase <;> rfl
    rw [hfailed]
    by_cases hactive : c.phase.is_active = true
    · simp only [PhaseOp.sets_phase, hactive, if_true]
      exact .sets rfl rfl
    · simp only [PhaseOp.sets_phase, hactive]
      exact .same rfl rfl
  | Stop =>
    have hstopped : c.transition lock .Stop = { c with phase := .Idle, review_lock := false } := by
      unfold transition
      cases c.phase <;> rfl
    rw [hstopped]
    exact .free rfl rfl
  | BeginReview diagnostics_pending =>
    unfold transition
    cases hphase : c.phase with
    | Active | AwaitingDiagnostics => exact .guarded rfl rfl rfl
    | _ => exact .same rfl rfl
  | CompleteReview =>
    unfold transition
    cases hphase : c.phase with
    | AwaitingReview => exact .free rfl rfl
    | _ => exact .same rfl rfl
  | _ =>
    unfold transition
    cases hphase : c.phase <;> exact .same (by simp [hphase, AutoRunPhase.awaiting_review]) rfl

theorem on_recovery_attempt_review (c : AutoDriveController) :
    c.on_recovery_attempt.phase.awaiting_review = c.phase.awaiting_review ∧
      c.on_recovery_attempt.review_lock = c.review_lock := by
  unfold on_recovery_attempt
  cases hphase : c.phase <;>
    simp [hphase, AutoRunPhase.in_transient_recovery, AutoRunPhase.awaiting_review]

theorem phase_op_review (c : AutoDriveController) (op : PhaseOp) :
    ReviewSpec c (op.apply c) (op.sets_phase c) := by
  cases op with
  | set_waiting_for_response waiting =>
    cases waiting
    · simp only [PhaseOp.apply, set_waiting_for_response]
      cases hphase : c.phase <;>
        exact .same (by simp [hphase, AutoRunPhase.is_waiting_for_response,
          AutoRunPhase.awaiting_review]) rfl
    · exact .sets rfl rfl
  | set_coordinator_waiting waiting =>
    simp only [PhaseOp.apply, set_coordinator_waiting]
    cases waiting
    · cases hphase : c.phase <;>
        exact .same (by simp [hphase, AutoRunPhase.awaiting_review]) rfl
    · cases hphase : c.phase <;> exact .sets rfl rfl
  | on_begin_review diagnostics_pending lock => exact .guarded rfl rfl rfl
  | on_complete_review => exact .free rfl rfl
  | on_recovery_attempt =>
    obtain ⟨hphase, hlock⟩ := on_recovery_attempt_review c
    exact .same hphase hlock
  | set_bypass_coordinator_next_submit =>
    simp only [PhaseOp.apply, set_bypass_coordinator_next_submit]
    cases hphase : c.phase <;> exact .same (by simp [hphase, AutoRunPhase.awaiting_review]) rfl
  | clear_bypass_coordinator_flag =>
    simp only [PhaseOp.apply, clear_bypass_coordinator_flag]
    cases hphase : c.phase <;> exact .same (by simp [hphase, AutoRunPhase.awaiting_review]) rfl
  | transition lock t => exact transition_review c lock t
  | _ => exact .sets rfl rfl

/-- A launch and a stop begin without a guard and outside a review. -/
theorem prepare_launch_review (c : AutoDriveController) (goal : Text) (options : LaunchOptions)
    (now : Nat) : ReviewSpec c (c.prepare_launch goal options now) none :=
  .free rfl rfl

theorem stop_run_review (c : AutoDriveController) (now : Nat) (message : Option Text) :
    ReviewSpec c (c.stop_run now message).1 none :=
  .free rfl rfl

theorem auto_handle_restart_review (c : AutoDriveController) (token attempt : Nat)
    (reduced_motion : Bool) (error : Option Text) (now : Nat) :
    ReviewSpec c (c.auto_handle_restart token attempt reduced_motion error now).1 none := by
  unfold auto_handle_restart
  by_cases hm : c.restart_matches token attempt = true
  · rw [if_pos hm]
    rcases c.goal with _ | goal
    · exact .free rfl rfl
    · cases error <;> exact .free rfl rfl
  · rw [if_neg hm]
    exact .same rfl rfl

theorem update_continue_mode_review (c : AutoDriveController) (mode : AutoContinueMode) :
    ReviewSpec c (c.update_continue_mode mode).1 none := by
  unfold update_continue_mode
  dsimp only
  split_ifs <;> exact .same rfl rfl

theorem handle_countdown_tick_review (c : AutoDriveController) (id seq left : Nat) :
    ReviewSpec c (c.handle_countdown_tick id seq left).1 none := by
  unfold handle_countdown_tick
  split_ifs <;> exact .same rfl rfl

theorem ControllerOp.review_spec (c : AutoDriveController) (op : ControllerOp) :
    ReviewSpec c (op.apply c).1 (op.sets_phase c) := by
  cases op with
  | intro op => cases op <;> exact .same rfl rfl
  | run op =>
    cases op with
    | prepare_launch goal options now => exact prepare_launch_review c goal options now
    | stop_run now message => exact stop_run_review c now message
    | reset => exact .free rfl rfl
    | reset_countdown => exact .same rfl rfl
    | update_continue_mode mode => exact update_continue_mode_review c mode
    | handle_countdown_tick id seq left => exact handle_countdown_tick_review c id seq left
    | auto_handle_countdown id left => exact handle_countdown_tick_review c id _ left
    | auto_handle_restart token attempt reduced_motion error now =>
      exact auto_handle_restart_review c token attempt reduced_motion error now
    | accept_decision =>
      obtain ⟨hphase, hlock⟩ := on_recovery_attempt_review { c with transient_restart_attempts := 0 }
      exact .same hphase hlock
    | phase op => exact phase_op_review c op
    | _ => exact .sets rfl rfl

/-! ## Runs -/

def step (c : AutoDriveController) (op : ControllerOp) : Option AutoDriveController :=
  some (op.apply c).1

/-- Where guard and phase agree, they agree after an operation exactly when it stays on its
side. -/
theorem step_follows_iff {c d : AutoDriveController} {op : ControllerOp}
    (h : LockFollowsPhase c) (hstep : step c op = some d) :
    LockFollowsPhase d ↔ StaysOnSide c op := by
  obtain rfl := Option.some.inj hstep
  have hspec := op.review_spec c
  unfold StaysOnSide
  generalize (op.apply c).1 = d at hspec ⊢
  generalize op.sets_phase c = sets at hspec ⊢
  cases hspec with
  | sets hphase hlock =>
    rename_i phase
    unfold LockFollowsPhase at h ⊢
    rw [hlock, h, hphase]
    cases c.phase.awaiting_review <;> cases hreview : phase.awaiting_review <;> simp [hreview]
  | agrees hagree => simp [hagree h]

/-- For every sequence of operations from the default state: the review guard is held exactly
while a review is awaited, after each of them, exactly when every operation that sets a phase
whatever guard there is stays on its side of a review. -/
theorem lock_follows_phase_iff_stays_on_side (ops : List ControllerOp) :
    (∀ before c, before <+: ops → before.foldlM step .default = some c → LockFollowsPhase c) ↔
      Guarded step StaysOnSide .default ops :=
  always_iff_guarded (fun _ _ _ h hstep => step_follows_iff h hstep) (fun _ _ => ⟨_, rfl⟩)
    (by decide)

/-- A review that is begun with the lock, and a transient failure while it is awaited. -/
def failure_in_review : List ControllerOp :=
  [.run (.phase (.transition false .BeginLaunch)), .run (.phase (.transition false .LaunchSuccess)),
    .run (.phase (.transition true (.BeginReview false))),
    .run (.phase (.transition false (.TransientFailure 5000)))]

/-- The guard stays held in the recovery. -/
theorem failure_in_review_keeps_the_lock :
    ∃ c, failure_in_review.foldlM step .default = some c ∧
      c.phase = .TransientRecovery 5000 ∧ c.review_lock = true ∧ ¬ LockFollowsPhase c :=
  ⟨_, rfl, rfl, rfl, by decide⟩

end Ecode.auto_drive
