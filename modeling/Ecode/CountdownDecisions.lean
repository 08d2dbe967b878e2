-- Which decision a countdown of Auto Drive is for: the number that every started countdown and
-- every tick that submits refers to, in runs of all the operations of the controller.
import Ecode.ControllerOps

open Ecode.runs

namespace Ecode.auto_drive

open AutoDriveController

/-! ## What the effects of an operation refer to -/

/-- The decision that comes with a tick; the terminal takes that of the controller. -/
def Op.ticked_decision (c : AutoDriveController) : Op → Option Nat
  | .handle_countdown_tick _ decision_seq _ => some decision_seq
  | .auto_handle_countdown _ _ => some c.countdown_decision_seq
  | _ => none

def AutoControllerEffect.decision (ticked : Option Nat) : AutoControllerEffect → Option Nat
  | .StartCountdown _ decision_seq _ => some decision_seq
  | .SubmitPrompt => ticked
  | _ => none

/-- The decisions of the countdowns that an operation starts, and of the tick that submits. -/
def Op.references (c : AutoDriveController) (op : Op) : List Nat :=
  (op.apply c).2.filterMap (AutoControllerEffect.decision (op.ticked_decision c))

/-- Whether an operation is one that uses the number which the controller has stored: a new mode
while a prompt waits to be submitted, and the last tick of the countdown that goes on. -/
def Op.uses_decision (c : AutoDriveController) : Op → Bool
  | .update_continue_mode mode => c.phase.awaiting_coordinator_submit && mode.seconds.isSome
  | .handle_countdown_tick countdown_id decision_seq seconds_left =>
    c.phase.awaiting_coordinator_submit && countdown_id == c.countdown_id &&
      decision_seq == c.countdown_decision_seq && seconds_left == 0
  | .auto_handle_countdown countdown_id seconds_left =>
    c.phase.awaiting_coordinator_submit && countdown_id == c.countdown_id && seconds_left == 0
  | _ => false

/-- A phase in which a prompt waits is an active one, and no pause. -/
theorem awaiting_phase {phase : AutoRunPhase} (h : phase.awaiting_coordinator_submit = true) :
    phase.is_active = true ∧ phase.is_paused_manual = false := by
  cases phase with
  | AwaitingCoordinator prompt_ready => exact ⟨rfl, rfl⟩
  | _ => simp [AutoRunPhase.awaiting_coordinator_submit] at h

/-- A tick is taken when a prompt waits and the tick is for the stored countdown and decision. -/
theorem handle_countdown_tick_effects (c : AutoDriveController) (id seq left : Nat) :
    (c.handle_countdown_tick id seq left).2 =
      if c.phase.awaiting_coordinator_submit ∧ id = c.countdown_id ∧
          seq = c.countdown_decision_seq then
        if left = 0 then [.SubmitPrompt] else [.RefreshUi]
      else [] := by
  unfold handle_countdown_tick
  by_cases h : c.phase.awaiting_coordinator_submit ∧ id = c.countdown_id ∧
      seq = c.countdown_decision_seq
  · obtain ⟨hactive, hpaused⟩ := awaiting_phase h.1
    rw [if_pos h, if_neg (by simp [h, hactive, hpaused])]
  · rw [if_neg h, if_pos (by tauto)]

theorem tick_references (c : AutoDriveController) (id seq left : Nat) :
    (c.handle_countdown_tick id seq left).2.filterMap
        (AutoControllerEffect.decision (some seq)) =
      if c.phase.awaiting_coordinator_submit ∧ id = c.countdown_id ∧
          seq = c.countdown_decision_seq ∧ left = 0 then [c.countdown_decision_seq]
      else [] := by
  rw [handle_countdown_tick_effects]
  by_cases h : c.phase.awaiting_coordinator_submit ∧ id = c.countdown_id ∧
      seq = c.countdown_decision_seq
  · obtain ⟨hawaiting, rfl, rfl⟩ := h
    by_cases hleft : left = 0
    · simp [hawaiting, hleft, AutoControllerEffect.decision]
    · simp [hleft, AutoControllerEffect.decision]
  · rw [if_neg h, if_neg (by tauto), List.filterMap_nil]

theorem start_countdown_references (c : AutoDriveController) (ticked : Option Nat) :
    (AutoControllerEffect.RefreshUi :: c.start_countdown).filterMap
        (AutoControllerEffect.decision ticked) =
      if c.countdown_seconds.isSome then [c.countdown_decision_seq] else [] := by
  unfold start_countdown
  cases c.countdown_seconds <;> rfl

theorem update_continue_mode_references (c : AutoDriveController) (mode : AutoContinueMode) :
    (c.update_continue_mode mode).2.filterMap (AutoControllerEffect.decision none) =
      if c.phase.awaiting_coordinator_submit && mode.seconds.isSome then
        [(c.update_continue_mode mode).1.countdown_decision_seq]
      else [] := by
  unfold update_continue_mode
  by_cases h : c.phase.awaiting_coordinator_submit = true
  · obtain ⟨-, hpaused⟩ := awaiting_phase h
    rw [if_pos ⟨h, by simp [reset_countdown, hpaused]⟩, start_countdown_references]
    simp [h, countdown_seconds, reset_countdown]
    rfl
  · rw [if_neg fun hboth => h hboth.1]
    simp [h, AutoControllerEffect.decision]

theorem auto_handle_restart_references (c : AutoDriveController) (token attempt : Nat)
    (reduced_motion : Bool) (error : Option Text) (now : Nat) :
    (c.auto_handle_restart token attempt reduced_motion error now).2.filterMap
      (AutoControllerEffect.decision none) = [] := by
  unfold auto_handle_restart
  by_cases hm : c.restart_matches token attempt = true
  · rw [if_pos hm]
    rcases c.goal with _ | goal
    · rfl
    · cases error <;> rfl
  · rw [if_neg hm]
    rfl

/-- A scheduled prompt is for its own decision. -/
theorem Op.references_scheduled {c : AutoDriveController} {op : Op} {d : Nat}
    (h : op.schedules_decision = some d) : ∀ seq ∈ op.references c, seq = d := by
  cases op with
  | schedule_cli_prompt decision_seq countdown_override =>
    obtain rfl := Option.some.inj h
    intro seq hseq
    have hrefs : references c (.schedule_cli_prompt decision_seq countdown_override) = _ :=
      start_countdown_references (c.schedule_cli_prompt decision_seq countdown_override).1 none
    rw [hrefs] at hseq
    split_ifs at hseq
    · exact List.mem_singleton.mp hseq
    · cases hseq
  | _ => cases h

/-- Everything else is for the stored decision. -/
theorem Op.references_stored {c : AutoDriveController} {op : Op}
    (h : op.schedules_decision = none) :
    op.references c =
      if op.uses_decision c then [(op.apply c).1.countdown_decision_seq] else [] := by
  cases op with
  | schedule_cli_prompt decision_seq countdown_override => cases h
  | update_continue_mode mode => exact update_continue_mode_references c mode
  | handle_countdown_tick id seq left =>
    refine (tick_references c id seq left).trans ?_
    simp [uses_decision, apply, handle_countdown_tick_decision, and_assoc]
  | auto_handle_countdown id left =>
    refine (tick_references c id _ left).trans ?_
    simp [uses_decision, apply, AutoDriveController.auto_handle_countdown,
      handle_countdown_tick_decision, and_assoc]
  | auto_handle_restart token attempt reduced_motion error now =>
    exact auto_handle_restart_references c token attempt reduced_motion error now
  | _ => rfl

/-! ## What a started countdown is answered with -/

/-- The controller waits for the ticks of this countdown of this decision. -/
def Counts (c : AutoDriveController) (countdown_id decision_seq : Nat) : Prop :=
  c.phase.awaiting_coordinator_submit = true ∧ c.countdown_id = countdown_id ∧
    c.countdown_decision_seq = decision_seq

theorem start_countdown_counts {c : AutoDriveController} {id seq seconds : Nat}
    (hawaiting : c.phase.awaiting_coordinator_submit = true)
    (h : .StartCountdown id seq seconds ∈ AutoControllerEffect.RefreshUi :: c.start_countdown) :
    Counts c id seq := by
  unfold start_countdown at h
  rcases hseconds : c.countdown_seconds with _ | n <;> simp [hseconds] at h
  exact ⟨hawaiting, h.1.symm, h.2.1.symm⟩

/-- A countdown is started with the stored id and decision, while a prompt waits. -/
theorem Op.started_counts {c : AutoDriveController} {op : Op} {id seq seconds : Nat}
    (h : .StartCountdown id seq seconds ∈ (op.apply c).2) : Counts (op.apply c).1 id seq := by
  cases op with
  | schedule_cli_prompt decision_seq countdown_override =>
    simp only [apply, AutoDriveController.schedule_cli_prompt] at h ⊢
    exact start_countdown_counts rfl h
  | update_continue_mode mode =>
    simp only [apply, AutoDriveController.update_continue_mode] at h ⊢
    split_ifs at h ⊢ with hawaiting
    · exact start_countdown_counts hawaiting.1 h
    · simp at h
  | handle_countdown_tick tick_id tick_seq left =>
    simp only [apply, handle_countdown_tick_effects] at h
    split_ifs at h <;> simp at h
  | auto_handle_countdown tick_id left =>
    simp only [apply, AutoDriveController.auto_handle_countdown, handle_countdown_tick_effects] at h
    split_ifs at h <;> simp at h
  | auto_handle_restart token attempt reduced_motion error now =>
    have hnone := auto_handle_restart_references c token attempt reduced_motion error now
    rw [List.filterMap_eq_nil_iff] at hnone
    cases hnone _ h
  | launch_succeeded goal now => simp [apply, AutoDriveController.launch_succeeded] at h
  | launch_failed goal error => simp [apply, AutoDriveController.launch_failed] at h
  | stop_run now message => simp [apply, AutoDriveController.stop_run] at h
  | pause_for_transient_failure reason =>
    simp [apply, AutoDriveController.pause_for_transient_failure] at h
  | _ => simp [apply] at h

theorem Counts.tick_taken_iff {c : AutoDriveController} {id seq : Nat} (h : Counts c id seq)
    (decision_seq left : Nat) :
    (c.handle_countdown_tick id decision_seq left).2 ≠ [] ↔ seq = decision_seq := by
  obtain ⟨hawaiting, rfl, rfl⟩ := h
  rw [handle_countdown_tick_effects]
  by_cases hseq : decision_seq = c.countdown_decision_seq
  · rw [if_pos ⟨hawaiting, rfl, hseq⟩]
    split_ifs <;> simp [hseq]
  · rw [if_neg fun hall => hseq hall.2.2]
    simp [Ne.symm hseq]

/-! ## Runs -/

/-- The controller with the decision that a prompt was last scheduled for, and with whether an
operation dropped its number since. -/
structure Deciding where
  auto_state : AutoDriveController
  decision : Option Nat
  dropped : Bool
  /-- The effects of the last operation. -/
  effects : List AutoControllerEffect
  /-- What the started countdowns and the ticks that submitted refer to, each with the decision
  that was then the last. -/
  references : List (Nat × Option Nat)
  deriving DecidableEq, Repr

namespace Deciding

def start : Deciding := ⟨.default, none, true, [], []⟩

def step (s : Deciding) : ControllerOp → Option Deciding
  | .intro op => some { s with auto_state := op.apply s.auto_state, effects := [] }
  | .run op =>
    let decision := op.schedules_decision.or s.decision
    some {
      auto_state := (op.apply s.auto_state).1
      decision
      dropped := op.schedules_decision.isNone &&
        (s.dropped || op.forgets_decision s.auto_state)
      effects := (op.apply s.auto_state).2
      references := s.references ++ (op.references s.auto_state).map (fun seq => (seq, decision)) }

def RefersToLatest (s : Deciding) : Prop := ∀ r ∈ s.references, r.2 = some r.1

/-- Every started countdown and every tick that submitted refers to the decision that a prompt
was last scheduled for, and of a countdown that is just started the ticks for this decision are
taken and those for every other one are not. -/
structure CarriesLatest (s : Deciding) : Prop where
  references : RefersToLatest s
  ticks : ∀ countdown_id decision_seq seconds,
    .StartCountdown countdown_id decision_seq seconds ∈ s.effects → ∀ ticked seconds_left,
      (s.auto_state.handle_countdown_tick countdown_id ticked seconds_left).2 ≠ [] ↔
        s.decision = some ticked

/-- The stored number is used only while no operation dropped it, or where it is 0 anyhow. -/
def UsesKnown (s : Deciding) : ControllerOp → Prop
  | .intro _ => True
  | .run op => op.uses_decision s.auto_state = true →
      s.decision = some 0 ∨ (s.dropped || op.forgets_decision s.auto_state) = false

instance (s : Deciding) : (op : ControllerOp) → Decidable (UsesKnown s op)
  | .intro _ => inferInstanceAs (Decidable True)
  | .run _ => inferInstanceAs (Decidable (_ → _))

/-- The controller has stored the last decision, or nothing. -/
structure Stored (s : Deciding) : Prop where
  seq : s.auto_state.countdown_decision_seq = if s.dropped then 0 else s.decision.getD 0
  scheduled : s.decision = none → s.dropped = true

theorem stored_start : Stored start := ⟨rfl, fun _ => rfl⟩

theorem intro_decision (c : AutoDriveController) (op : IntroOp) :
    (op.apply c).countdown_decision_seq = c.countdown_decision_seq := by
  cases op <;> rfl

/-- The number that is stored after an operation which schedules nothing. -/
theorem Stored.after {s : Deciding} (h : Stored s) {op : Op} (hop : op.schedules_decision = none) :
    (op.apply s.auto_state).1.countdown_decision_seq =
      if s.dropped || op.forgets_decision s.auto_state then 0 else s.decision.getD 0 := by
  rw [op.decision_spec, hop, h.seq]
  cases s.dropped <;> cases op.forgets_decision s.auto_state <;> rfl

theorem step_stored {s t : Deciding} {op : ControllerOp} (h : Stored s)
    (hstep : step s op = some t) : Stored t := by
  cases op with
  | intro op =>
    obtain rfl := Option.some.inj hstep
    exact ⟨(intro_decision _ op).trans h.seq, h.scheduled⟩
  | run op =>
    obtain rfl := Option.some.inj hstep
    rcases hop : op.schedules_decision with _ | d
    · refine ⟨?_, ?_⟩
      · simpa [hop] using h.after hop
      · intro hnone
        simp at hnone ⊢
        exact .inl (h.scheduled hnone)
    · refine ⟨?_, by simp⟩
      simp [op.decision_spec, hop]

/-- A number that is used is that of the last decision exactly when none was dropped. -/
theorem Stored.known_iff {s : Deciding} (h : Stored s) (dropped : Bool)
    (hdropped : s.dropped = true → dropped = true) :
    s.decision = some (if dropped then 0 else s.decision.getD 0) ↔
      s.decision = some 0 ∨ dropped = false := by
  rcases hd : s.decision with _ | d
  · simp [hdropped (h.scheduled hd)]
  · cases dropped <;> simp

theorem step_refers_iff {s t : Deciding} {op : ControllerOp} (h : Stored s)
    (hstep : step s op = some t) : RefersToLatest t ↔ RefersToLatest s ∧ UsesKnown s op := by
  cases op with
  | intro op =>
    obtain rfl := Option.some.inj hstep
    simp [RefersToLatest, UsesKnown]
  | run op =>
    obtain rfl := Option.some.inj hstep
    simp only [RefersToLatest, List.forall_mem_append, List.forall_mem_map]
    refine and_congr_right fun _ => ?_
    rcases hop : op.schedules_decision with _ | d
    · rw [Op.references_stored hop, h.after hop]
      by_cases huses : op.uses_decision s.auto_state = true
      · simpa [huses, UsesKnown] using h.known_iff (s.dropped || op.forgets_decision s.auto_state)
          (by intro hs; simp [hs])
      · simp [huses, UsesKnown]
    · have hnot : op.uses_decision s.auto_state = false := by
        cases op <;> first | rfl | cases hop
      simp only [UsesKnown, hnot, Bool.false_eq_true, false_implies, iff_true]
      intro seq hseq
      rw [Op.references_scheduled hop seq hseq]
      rfl

theorem refers_start : RefersToLatest start := by simp [RefersToLatest, start]

/-- The effects of the last operation start countdowns that the controller then counts. -/
theorem step_started {s t : Deciding} {op : ControllerOp} (hstep : step s op = some t)
    {id seq seconds : Nat} (h : .StartCountdown id seq seconds ∈ t.effects) :
    Counts t.auto_state id seq ∧ (seq, t.decision) ∈ t.references := by
  cases op with
  | intro op =>
    obtain rfl := Option.some.inj hstep
    cases h
  | run op =>
    obtain rfl := Option.some.inj hstep
    refine ⟨Op.started_counts h, List.mem_append_right _ (List.mem_map.mpr ⟨seq, ?_, rfl⟩)⟩
    exact List.mem_filterMap.mpr ⟨_, h, rfl⟩

/-- What the last operation of a run left: a countdown that it started is counted. -/
theorem run_started {ops : List ControllerOp} {s : Deciding}
    (hrun : ops.foldlM step start = some s) {id seq seconds : Nat}
    (h : .StartCountdown id seq seconds ∈ s.effects) :
    Counts s.auto_state id seq ∧ (seq, s.decision) ∈ s.references := by
  rcases List.eq_nil_or_concat ops with rfl | ⟨before, op, rfl⟩
  · obtain rfl : start = s := by simpa using hrun
    cases h
  · rw [List.concat_eq_append, List.foldlM_append] at hrun
    obtain ⟨t, -, hlast⟩ := Option.bind_eq_some_iff.mp hrun
    have hstep : step t op = some s := by simpa using hlast
    exact step_started hstep h

theorem RefersToLatest.carries {ops : List ControllerOp} {s : Deciding}
    (hrun : ops.foldlM step start = some s) (h : RefersToLatest s) : CarriesLatest s where
  references := h
  ticks := by
    intro id seq seconds hstarted ticked left
    obtain ⟨hcounts, href⟩ := run_started hrun hstarted
    have hlatest : s.decision = some seq := h _ href
    rw [hcounts.tick_taken_iff, hlatest]
    simp

/-- For every run of operations of the controller: every started countdown and every submitting
tick refers to the last scheduled decision, and the ticks for this decision are taken, exactly
when the stored number is never used after an operation dropped it. -/
theorem carries_latest_iff_used_while_known {ops : List ControllerOp} {s : Deciding}
    (hrun : ops.foldlM step start = some s) :
    CarriesLatest s ↔ Guarded step UsesKnown start ops := by
  have hrefers := guarded_iff (P := RefersToLatest) (G := UsesKnown)
    (fun _ _ _ h ht => step_stored h ht) (fun _ _ _ h ht => step_refers_iff h ht) stored_start hrun
  constructor
  · intro h
    exact (hrefers.mp h.references).2
  · intro hguarded
    exact (hrefers.mpr ⟨refers_start, hguarded⟩).carries hrun

/-- A prompt for decision 7, a change of the mode, and the last tick of the new countdown. -/
def longer_countdown : List ControllerOp :=
  [.run (.schedule_cli_prompt 7 none), .run (.update_continue_mode .SixtySeconds),
    .run (.handle_countdown_tick 2 7 0)]

theorem longer_countdown_carries_latest :
    ∃ s, longer_countdown.foldlM step start = some s ∧
      s.references = [(7, some 7), (7, some 7), (7, some 7)] ∧ CarriesLatest s := by
  have hrun : (longer_countdown.foldlM step start).map references =
      some [(7, some 7), (7, some 7), (7, some 7)] := by decide
  obtain ⟨s, hs, hrefs⟩ := Option.map_eq_some_iff.mp hrun
  exact ⟨s, hs, hrefs, (carries_latest_iff_used_while_known hs).mpr (by decide)⟩

/-- The same with a change to manual mode and back. -/
def manual_and_back : List ControllerOp :=
  [.run (.schedule_cli_prompt 7 none), .run (.update_continue_mode .Manual),
    .run (.update_continue_mode .TenSeconds)]

/-- The new countdown of decision 7 is started for decision 0, and the tick for decision 7 is not
taken. -/
theorem manual_and_back_loses_the_decision :
    ∃ s, manual_and_back.foldlM step start = some s ∧ s.decision = some 7 ∧
      s.effects = [.RefreshUi, .StartCountdown 3 0 10] ∧
      (s.auto_state.handle_countdown_tick 3 7 0).2 = [] ∧ ¬ CarriesLatest s := by
  refine ⟨_, rfl, rfl, rfl, rfl, ?_⟩
  intro h
  exact absurd (h.references (0, some 7) (by decide)) (by decide)

end Deciding

end Ecode.auto_drive
