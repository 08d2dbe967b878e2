-- One submission for each countdown of an Auto Drive run: prompts, modes and submissions in any
-- order, with the ticks of every started countdown delivered at any time and any number of times.
import Ecode.CountdownDecisions

open Ecode.runs

namespace Ecode.auto_drive

open AutoDriveController

/-- A started countdown. `number` counts the countdown ids that the run had taken with it, so it
tells countdowns apart whose ids are equal. -/
structure Countdown where
  number : Nat
  countdown_id : Nat
  deriving DecidableEq, Repr

inductive CountdownOp where
  | schedule_cli_prompt (decision_seq : Nat) (countdown_override : Option Nat)
  | update_continue_mode (mode : AutoContinueMode)
  | on_prompt_submitted
  /-- A tick of a started countdown, with whichever decision comes with it. -/
  | tick (countdown : Countdown) (decision_seq seconds_left : Nat)
  deriving DecidableEq, Repr

namespace CountdownOp

def op : CountdownOp → Op
  | schedule_cli_prompt decision_seq countdown_override =>
    .schedule_cli_prompt decision_seq countdown_override
  | update_continue_mode mode => .update_continue_mode mode
  | on_prompt_submitted => .phase .on_prompt_submitted
  | tick countdown decision_seq seconds_left =>
    .handle_countdown_tick countdown.countdown_id decision_seq seconds_left

/-- The countdown whose tick this is. -/
def ticked : CountdownOp → Option Countdown
  | tick countdown _ _ => some countdown
  | _ => none

end CountdownOp

structure Counting where
  auto_state : AutoDriveController
  /-- How many countdown ids were taken. -/
  taken : Nat
  started : List Countdown
  /-- The countdowns whose ticks submitted, once for each `SubmitPrompt`. -/
  submitted : List Countdown
  deriving DecidableEq, Repr

namespace Counting

def start (c : AutoDriveController) : Counting := ⟨c, 0, [], []⟩

/-- A tick comes from a countdown that was started, and every `SubmitPrompt` is followed by
`on_prompt_submitted`. -/
def step (s : Counting) (a : CountdownOp) : Option Counting :=
  if ∀ k ∈ a.ticked, k ∈ s.started then
    let result := a.op.apply s.auto_state
    let taken := s.taken + (a.op.takes_countdown_id s.auto_state).toList.length
    let submits := decide (AutoControllerEffect.SubmitPrompt ∈ result.2)
    some {
      auto_state := if submits then result.1.on_prompt_submitted else result.1
      taken
      started := s.started ++
        (result.2.filterMap AutoControllerEffect.countdown).map (fun id => ⟨taken, id⟩)
      submitted := if submits then s.submitted ++ a.ticked.toList else s.submitted }
  else none

/-- A later countdown id was taken. -/
def Superseded (s : Counting) (k : Countdown) : Prop := k.number < s.taken

/-- The ids of the countdowns since are all taken, so that this countdown's id is the current
one again. -/
def WrappedAround (s : Counting) (k : Countdown) : Prop := 2 ^ 64 ∣ s.taken - k.number

instance (s : Counting) (k : Countdown) : Decidable (s.Superseded k) :=
  inferInstanceAs (Decidable (_ < _))

instance (s : Counting) (k : Countdown) : Decidable (s.WrappedAround k) :=
  inferInstanceAs (Decidable (_ ∣ _))

/-- A tick comes before its countdown's id is taken again, or after. -/
def InTime (s : Counting) (a : CountdownOp) : Prop :=
  ∀ k ∈ a.ticked, s.Superseded k → ¬ s.WrappedAround k

instance (s : Counting) (a : CountdownOp) : Decidable (InTime s a) :=
  inferInstanceAs (Decidable (∀ _ ∈ _, _))

/-- A tick of a countdown does nothing, whatever else comes with it. -/
def Dead (s : Counting) (k : Countdown) : Prop :=
  ∀ decision_seq seconds_left,
    s.auto_state.handle_countdown_tick k.countdown_id decision_seq seconds_left =
      (s.auto_state, [])

/-! ## The ids of a run -/

/-- The countdown id after so many were taken. -/
def id_after (c : AutoDriveController) (taken : Nat) : Nat := (c.countdown_id + taken) % 2 ^ 64

/-- What holds in every run from a controller `c`. -/
structure Numbered (c : AutoDriveController) (s : Counting) : Prop where
  current : 0 < s.taken → s.auto_state.countdown_id = id_after c s.taken
  untaken : s.taken = 0 → s.auto_state.countdown_id = c.countdown_id
  started : ∀ k ∈ s.started, 0 < k.number ∧ k.number ≤ s.taken ∧
    k.countdown_id = id_after c k.number
  submitted : ∀ k ∈ s.submitted, k ∈ s.started

theorem numbered_start (c : AutoDriveController) : Numbered c (start c) :=
  ⟨by simp [start], by simp [start], by simp [start], by simp [start]⟩

/-- Only a countdown whose id was taken again has the id of the controller. -/
theorem Numbered.wrapped_of_current {c : AutoDriveController} {s : Counting} (h : Numbered c s)
    {k : Countdown} (hk : k ∈ s.started) (hid : k.countdown_id = s.auto_state.countdown_id) :
    s.WrappedAround k := by
  obtain ⟨hpos, hle, hknum⟩ := h.started k hk
  have hmod : c.countdown_id + k.number ≡ c.countdown_id + s.taken [MOD 2 ^ 64] := by
    have hcurrent := h.current (hpos.trans_le hle)
    rw [hknum, hcurrent] at hid
    exact hid
  exact (Nat.modEq_iff_dvd' hle).mp (Nat.ModEq.add_left_cancel' _ hmod)

theorem Numbered.dead {c : AutoDriveController} {s : Counting} (h : Numbered c s) {k : Countdown}
    (hk : k ∈ s.started) (hnot : ¬ s.WrappedAround k) : Dead s k := by
  intro seq left
  unfold handle_countdown_tick
  exact if_pos (.inr (.inl fun hid => hnot (h.wrapped_of_current hk hid)))

/-! ## What a step does -/

/-- An operation takes the next countdown id, or none. -/
theorem takes_next (c : AutoDriveController) (a : CountdownOp) :
    a.op.takes_countdown_id c = none ∨
      a.op.takes_countdown_id c = some (wrapping_succ c.countdown_id) := by
  cases a with
  | schedule_cli_prompt decision_seq countdown_override => exact .inr rfl
  | update_continue_mode mode =>
    simp only [CountdownOp.op, Op.takes_countdown_id]
    split_ifs
    · exact .inr rfl
    · exact .inl rfl
  | on_prompt_submitted => exact .inl rfl
  | tick countdown decision_seq seconds_left => exact .inl rfl

/-- A countdown that is started has the id that was taken for it. -/
theorem starts_taken {c : AutoDriveController} {a : CountdownOp} {id : Nat}
    (h : id ∈ (a.op.apply c).2.filterMap AutoControllerEffect.countdown) :
    (a.op.apply c).1.countdown_id = id ∧ a.op.takes_countdown_id c ≠ none := by
  obtain ⟨effect, hmem, heffect⟩ := List.mem_filterMap.mp h
  obtain ⟨seq, seconds, rfl⟩ : ∃ seq seconds, effect = .StartCountdown id seq seconds := by
    cases effect <;> simp [AutoControllerEffect.countdown] at heffect
    exact ⟨_, _, by rw [heffect]⟩
  refine ⟨(Op.started_counts hmem).2.1, ?_⟩
  cases a with
  | schedule_cli_prompt decision_seq countdown_override => simp [CountdownOp.op, Op.takes_countdown_id]
  | update_continue_mode mode =>
    simp only [CountdownOp.op, Op.takes_countdown_id]
    by_cases hawaiting : c.phase.awaiting_coordinator_submit = true
    · simp [hawaiting]
    · simp [CountdownOp.op, Op.apply, update_continue_mode, reset_countdown, hawaiting] at hmem
  | on_prompt_submitted => cases hmem
  | tick countdown decision_seq seconds_left =>
    simp only [CountdownOp.op, Op.apply, handle_countdown_tick_effects] at hmem
    split_ifs at hmem <;> simp at hmem

/-- Only a tick submits: one of the controller's own countdown, while a prompt waits. -/
theorem submits_tick {c : AutoDriveController} {a : CountdownOp}
    (h : .SubmitPrompt ∈ (a.op.apply c).2) :
    ∃ k seq left, a = .tick k seq left ∧ k.countdown_id = c.countdown_id ∧
      c.phase.awaiting_coordinator_submit = true ∧ (a.op.apply c).2 = [.SubmitPrompt] := by
  cases a with
  | schedule_cli_prompt decision_seq countdown_override =>
    simp only [CountdownOp.op, Op.apply, schedule_cli_prompt, start_countdown] at h
    split at h <;> simp at h
  | update_continue_mode mode =>
    simp only [CountdownOp.op, Op.apply, update_continue_mode, start_countdown] at h
    split_ifs at h
    · split at h <;> simp at h
    · simp at h
  | on_prompt_submitted => cases h
  | tick k seq left =>
    simp only [CountdownOp.op, Op.apply, handle_countdown_tick_effects] at h ⊢
    split_ifs at h with htaken hleft
    · exact ⟨k, seq, left, rfl, htaken.2.1, htaken.1, by simp [htaken, hleft]⟩
    · simp at h
    · simp at h

/-- A prompt begins to wait only with a new countdown id. -/
theorem awaiting_of_untaken {c : AutoDriveController} {a : CountdownOp}
    (htakes : a.op.takes_countdown_id c = none)
    (h : (a.op.apply c).1.phase.awaiting_coordinator_submit = true) :
    c.phase.awaiting_coordinator_submit = true := by
  cases a with
  | schedule_cli_prompt decision_seq countdown_override => cases htakes
  | update_continue_mode mode =>
    simp only [CountdownOp.op, Op.apply, update_continue_mode] at h
    split_ifs at h <;> exact h
  | on_prompt_submitted => cases h
  | tick k seq left =>
    simp only [CountdownOp.op, Op.apply, handle_countdown_tick] at h
    split_ifs at h <;> exact h

theorem id_after_succ (c : AutoDriveController) (taken : Nat) :
    id_after c (taken + 1) = wrapping_succ (id_after c taken) := by
  simp [id_after, wrapping_succ, Nat.add_assoc]

/-- A step is a tick that submits, or one that takes at most one id and submits nothing. -/
theorem step_cases {s t : Counting} {a : CountdownOp} (h : step s a = some t) :
    (∀ k ∈ a.ticked, k ∈ s.started) ∧
      ((∃ k seq left, a = .tick k seq left ∧ k.countdown_id = s.auto_state.countdown_id ∧
          s.auto_state.phase.awaiting_coordinator_submit = true ∧
          t = { s with
            auto_state := (a.op.apply s.auto_state).1.on_prompt_submitted
            submitted := s.submitted ++ [k] }) ∨
        t = {
          auto_state := (a.op.apply s.auto_state).1
          taken := s.taken + (a.op.takes_countdown_id s.auto_state).toList.length
          started := s.started ++
            ((a.op.apply s.auto_state).2.filterMap AutoControllerEffect.countdown).map
              (fun id => ⟨s.taken + (a.op.takes_countdown_id s.auto_state).toList.length, id⟩)
          submitted := s.submitted }) := by
  unfold step at h
  split_ifs at h with hstarted
  obtain rfl := Option.some.inj h
  refine ⟨hstarted, ?_⟩
  by_cases hsubmits : .SubmitPrompt ∈ (a.op.apply s.auto_state).2
  · obtain ⟨k, seq, left, rfl, hid, hawaiting, heffects⟩ := submits_tick hsubmits
    refine .inl ⟨k, seq, left, rfl, hid, hawaiting, ?_⟩
    simp only [heffects, List.mem_singleton, decide_true, if_true]
    simp [CountdownOp.op, CountdownOp.ticked, Op.takes_countdown_id,
      AutoControllerEffect.countdown]
  · exact .inr (by simp [hsubmits])

theorem Numbered.take {c : AutoDriveController} {s : Counting} (h : Numbered c s) :
    wrapping_succ s.auto_state.countdown_id = id_after c (s.taken + 1) := by
  rcases Nat.eq_zero_or_pos s.taken with hzero | hpos
  · rw [h.untaken hzero, hzero]
    rfl
  · rw [h.current hpos, id_after_succ]

theorem step_numbered {c : AutoDriveController} {s t : Counting} {a : CountdownOp}
    (h : Numbered c s) (hstep : step s a = some t) : Numbered c t := by
  obtain ⟨hstarted, ⟨k, seq, left, rfl, hid, -, rfl⟩ | rfl⟩ := step_cases hstep
  · have hsame := (handle_countdown_tick_same s.auto_state k.countdown_id seq left).1
    refine ⟨fun hpos => hsame.trans (h.current hpos), fun hzero => hsame.trans (h.untaken hzero),
      h.started, ?_⟩
    intro k' hk'
    rcases List.mem_append.mp hk' with hold | hnew
    · exact h.submitted k' hold
    · obtain rfl := List.mem_singleton.mp hnew
      exact hstarted k' rfl
  · have hid := (a.op.spec s.auto_state).id
    rcases takes_next s.auto_state a with htakes | htakes
    · -- no id was taken, so nothing was started
      have hnone : (a.op.apply s.auto_state).2.filterMap AutoControllerEffect.countdown = [] := by
        apply List.eq_nil_iff_forall_not_mem.mpr
        intro id hmem
        exact (starts_taken hmem).2 htakes
      rw [htakes] at hid
      simp only [htakes, hnone, Option.toList_none, List.length_nil, Nat.add_zero, List.map_nil,
        List.append_nil]
      exact ⟨fun hpos => hid.trans (h.current hpos), fun hzero => hid.trans (h.untaken hzero),
        h.started, h.submitted⟩
    · rw [htakes, Option.getD_some, h.take] at hid
      simp only [htakes, Option.toList_some, List.length_singleton]
      refine ⟨fun _ => hid, fun hzero => absurd hzero (by simp), ?_, ?_⟩
      · intro k hk
        rcases List.mem_append.mp hk with hold | hnew
        · obtain ⟨hpos, hle, hknum⟩ := h.started k hold
          exact ⟨hpos, hle.trans (Nat.le_succ _), hknum⟩
        · obtain ⟨id, hmem, rfl⟩ := List.mem_map.mp hnew
          exact ⟨Nat.succ_pos _, le_refl _, (starts_taken hmem).1.symm.trans hid⟩
      · intro k hk
        exact List.mem_append_left _ (h.submitted k hk)

/-! ## Runs -/

/-- No countdown has submitted twice, and none waits to be submitted again. -/
structure Once (c : AutoDriveController) (s : Counting) : Prop extends Numbered c s where
  once : s.submitted.Nodup
  done : ∀ k ∈ s.submitted, ¬ s.Superseded k →
    ¬ s.auto_state.phase.awaiting_coordinator_submit = true

theorem once_start (c : AutoDriveController) : Once c (start c) :=
  ⟨numbered_start c, by simp [start], by simp [start]⟩

theorem step_once {c : AutoDriveController} {s t : Counting} {a : CountdownOp} (h : Once c s)
    (hok : InTime s a) (hstep : step s a = some t) : Once c t := by
  refine ⟨step_numbered h.toNumbered hstep, ?_, ?_⟩
  · obtain ⟨hstarted, ⟨k, seq, left, rfl, hid, hawaiting, rfl⟩ | rfl⟩ := step_cases hstep
    · have hk : k ∈ s.started := hstarted k rfl
      -- the tick is taken, so the countdown is the current one
      have hcurrent : ¬ s.Superseded k := fun hsuperseded =>
        hok k rfl hsuperseded (h.wrapped_of_current hk hid)
      apply h.once.append (List.nodup_singleton k)
      intro k' hk' hmem
      obtain rfl := List.mem_singleton.mp hmem
      exact h.done k' hk' hcurrent hawaiting
    · exact h.once
  · obtain ⟨-, ⟨k, seq, left, rfl, -, -, rfl⟩ | rfl⟩ := step_cases hstep
    · intro k' _ _
      simp [on_prompt_submitted, AutoRunPhase.awaiting_coordinator_submit]
    · intro k hk hcurrent hawaiting
      rcases takes_next s.auto_state a with htakes | htakes
      · have hbefore := awaiting_of_untaken htakes hawaiting
        refine h.done k hk ?_ hbefore
        simpa [Superseded, htakes] using hcurrent
      · -- a new id supersedes every countdown that has submitted
        have hle := (h.toNumbered.started k (h.toNumbered.submitted k hk)).2.1
        apply hcurrent
        simp only [Superseded, htakes, Option.toList_some, List.length_singleton]
        omega

/-- For every controller, and for every order, repetition and delay of the ticks among prompts,
modes and submissions: while no tick comes after its countdown's id was taken again, every
countdown submits at most once, and the ticks of a superseded countdown do nothing until its id is
taken again. -/
theorem one_submission_for_each_countdown {c : AutoDriveController} {s : Counting}
    (h : Reached step (start c) InTime s) :
    s.submitted.Nodup ∧ ∀ k ∈ s.started, s.Superseded k → ¬ s.WrappedAround k → Dead s k := by
  have honce : Once c s := h.invariant (once_start c) fun _ _ _ hs hok ht => step_once hs hok ht
  refine ⟨honce.once, ?_⟩
  intro k hk _ hnot
  exact honce.toNumbered.dead hk hnot

/-! ## Runs of more countdowns than there are ids -/

/-- A prompt for decision 7 is scheduled, which takes the next id and starts its countdown. -/
theorem step_schedule (s : Counting) : ∃ t, step s (.schedule_cli_prompt 7 none) = some t ∧
    t.auto_state.countdown_id = wrapping_succ s.auto_state.countdown_id ∧
    t.auto_state.countdown_decision_seq = 7 ∧
    t.auto_state.phase.awaiting_coordinator_submit = true ∧ t.taken = s.taken + 1 ∧
    s.started ⊆ t.started ∧ t.submitted = s.submitted := by
  rcases hstep : step s (.schedule_cli_prompt 7 none) with _ | t
  · simp [step, CountdownOp.ticked] at hstep
  · obtain ⟨-, ⟨k, seq, left, ⟨⟩, -⟩ | rfl⟩ := step_cases hstep
    exact ⟨_, rfl, rfl, rfl, rfl, rfl, List.subset_append_left _ _, rfl⟩

/-- Prompts are scheduled again and again. -/
theorem reached_schedules {c : AutoDriveController} {s : Counting}
    (h : Reached step (start c) (fun _ _ => True) s) (n : Nat) :
    ∃ t, Reached step (start c) (fun _ _ => True) t ∧ t.taken = s.taken + (n + 1) ∧
      t.auto_state.countdown_id = id_after s.auto_state (n + 1) ∧
      t.auto_state.countdown_decision_seq = 7 ∧
      t.auto_state.phase.awaiting_coordinator_submit = true ∧
      s.started ⊆ t.started ∧ t.submitted = s.submitted := by
  induction n with
  | zero =>
    obtain ⟨t, hstep, hid, hseq, hphase, htaken, hstarted, hsubmitted⟩ := step_schedule s
    exact ⟨t, .step h trivial hstep, htaken, hid, hseq, hphase, hstarted, hsubmitted⟩
  | succ n ih =>
    obtain ⟨t, ht, htaken, hid, -, -, hstarted, hsubmitted⟩ := ih
    obtain ⟨u, hstep, hid', hseq, hphase, htaken', hstarted', hsubmitted'⟩ := step_schedule t
    refine ⟨u, .step ht trivial hstep, by omega, ?_, hseq, hphase,
      List.Subset.trans hstarted hstarted', hsubmitted'.trans hsubmitted⟩
    rw [hid', hid, ← id_after_succ]

theorem tick_submits {s : Counting} {k : Countdown}
    (hphase : s.auto_state.phase.awaiting_coordinator_submit = true)
    (hid : k.countdown_id = s.auto_state.countdown_id) :
    (s.auto_state.handle_countdown_tick k.countdown_id s.auto_state.countdown_decision_seq 0).2 =
      [.SubmitPrompt] := by
  simp [handle_countdown_tick_effects, hphase, hid]

/-- The last tick of a countdown with the current id submits it. -/
theorem step_tick {s : Counting} {k : Countdown} (hk : k ∈ s.started)
    (hphase : s.auto_state.phase.awaiting_coordinator_submit = true)
    (hid : k.countdown_id = s.auto_state.countdown_id) :
    ∃ t, step s (.tick k s.auto_state.countdown_decision_seq 0) = some t ∧
      t.auto_state.countdown_id = s.auto_state.countdown_id ∧ t.started = s.started ∧
      t.taken = s.taken ∧ t.submitted = s.submitted ++ [k] := by
  have heffects := tick_submits hphase hid
  have hsame := (handle_countdown_tick_same s.auto_state k.countdown_id
    s.auto_state.countdown_decision_seq 0).1
  refine ⟨_, if_pos (by simpa [CountdownOp.ticked] using hk), ?_⟩
  simp only [CountdownOp.op, Op.apply, heffects, List.mem_singleton, decide_true, if_true]
  exact ⟨hsame, by simp [AutoControllerEffect.countdown], rfl, rfl⟩

/-- The first countdown of a controller without a history. -/
def first : Countdown := ⟨1, 1⟩

/-- When 2 ^ 64 more countdowns were started, the first one is counted again. -/
theorem first_is_counted_again : ∃ s, Reached step (start .default) (fun _ _ => True) s ∧
    first ∈ s.started ∧ s.Superseded first ∧ s.submitted = [first] ∧
    s.auto_state.phase.awaiting_coordinator_submit = true ∧
    first.countdown_id = s.auto_state.countdown_id := by
  obtain ⟨s, hstep, hk, hphase, hid, htaken, hnone⟩ : ∃ s,
      step (start .default) (.schedule_cli_prompt 7 none) = some s ∧ first ∈ s.started ∧
      s.auto_state.phase.awaiting_coordinator_submit = true ∧
      first.countdown_id = s.auto_state.countdown_id ∧ s.taken = 1 ∧ s.submitted = [] :=
    ⟨_, rfl, by decide, rfl, rfl, rfl, rfl⟩
  obtain ⟨t, htick, hid', hstarted, htaken', hsubmitted⟩ := step_tick hk hphase hid
  have ht : Reached step (start .default) (fun _ _ => True) t :=
    .step (.step .start trivial hstep) trivial htick
  obtain ⟨u, hu, htaken'', hid'', -, hphase'', hstarted'', hsubmitted''⟩ :=
    reached_schedules ht (2 ^ 64 - 1)
  refine ⟨u, hu, hstarted'' (hstarted ▸ hk), ?_, ?_, hphase'', ?_⟩
  · simp only [Superseded, first]
    omega
  · rw [hsubmitted'', hsubmitted, hnone]
    rfl
  · rw [hid'', id_after, hid', ← hid]
    rfl

/-- Without the condition a superseded countdown submits, and a countdown submits twice. -/
theorem first_submits_again :
    (∃ s, Reached step (start .default) (fun _ _ => True) s ∧ ∃ k ∈ s.started,
      s.Superseded k ∧ ¬ Dead s k) ∧
    ∃ s, Reached step (start .default) (fun _ _ => True) s ∧ ¬ s.submitted.Nodup := by
  obtain ⟨s, hs, hk, hsuperseded, hsubmitted, hphase, hid⟩ := first_is_counted_again
  refine ⟨⟨s, hs, first, hk, hsuperseded, ?_⟩, ?_⟩
  · intro hdead
    have hnothing := congrArg Prod.snd (hdead s.auto_state.countdown_decision_seq 0)
    rw [tick_submits hphase hid] at hnothing
    cases hnothing
  · obtain ⟨t, htick, -, -, -, htwice⟩ := step_tick hk hphase hid
    refine ⟨t, hs.step trivial htick, ?_⟩
    rw [htwice, hsubmitted]
    decide

/-- A prompt whose first countdown is superseded by a longer one, and the ticks of both. -/
def longer_then_late_ticks : List CountdownOp :=
  [.schedule_cli_prompt 7 none, .update_continue_mode .SixtySeconds, .tick ⟨2, 2⟩ 7 0,
    .tick ⟨1, 1⟩ 7 0, .tick ⟨2, 2⟩ 7 0]

theorem longer_submits_once :
    ∃ s, Reached step (start .default) InTime s ∧ s.submitted = [⟨2, 2⟩] ∧
      s.submitted.Nodup ∧ ∀ k ∈ s.started, s.Superseded k → ¬ s.WrappedAround k → Dead s k := by
  have hrun : (longer_then_late_ticks.foldlM
      (fun s a => if InTime s a then step s a else none) (start .default)).map submitted =
        some [⟨2, 2⟩] := by
    decide
  obtain ⟨s, hs, hsubmitted⟩ := Reached.of_run hrun
  exact ⟨s, hs, hsubmitted, one_submission_for_each_countdown hs⟩

end Counting

end Ecode.auto_drive
