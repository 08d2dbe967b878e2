-- Approvals (core/src/codex/session.rs): a request sends an event to the client and
-- registers the sender of its answer, and the client answers under the id of the event.
import Ecode.Runs
import Ecode.Text

open Ecode.runs

namespace Ecode.approvals

/-! ## Requests and answers -/

/-- The calls of `request_command_approval` and `request_patch_approval`, with the ids that they
give to the event. What is to be approved is only carried. -/
inductive ApprovalRequest where
  | command (call_id : Text) (approval_id : Option Text)
  | patch (call_id : Text)
  deriving DecidableEq, Repr

/-- The id under which the sender is registered, and under which the client answers. -/
def ApprovalRequest.effective_approval_id : ApprovalRequest → Text
  | .command call_id approval_id => approval_id.getD call_id
  | .patch call_id => call_id

/-- `ReviewDecision`. A decision to abort is not passed to `notify_approval`. -/
inductive ReviewDecision where
  | Approved
  | ApprovedExecpolicyAmendment (command : List Text)
  | ApprovedForSession
  | Denied
  deriving DecidableEq, Repr

/-- How far a request is. -/
inductive Stage where
  | idle
  /-- The event is sent. -/
  | sent
  /-- The sender is registered, and the caller waits for the receiver. -/
  | registered
  deriving DecidableEq, Repr

/-- The requests `R` of a session and its client. -/
structure Approvals (R : Type) where
  stage : R → Stage
  /-- The events that the client has not received yet. -/
  tx_event : List R
  /-- The requests that the client knows. -/
  seen : List R
  /-- The requests whose senders are registered, by id. -/
  pending_approvals : Text → Option R
  /-- What the receiver of a request has got. -/
  received : R → Option ReviewDecision
  /-- The answers of the client, in order. -/
  answers : List (R × ReviewDecision)

inductive Action (R : Type) where
  | send_event (r : R)
  | register (r : R)
  | client_receive
  | client_answer (r : R) (decision : ReviewDecision)
  deriving DecidableEq, Repr

namespace Approvals

variable {R : Type}

/-- No request is made yet. -/
def start : Approvals R where
  stage := fun _ => .idle
  tx_event := []
  seen := []
  pending_approvals := fun _ => none
  received := fun _ => none
  answers := []

section steps

variable [DecidableEq R]

/-- `notify_approval`: the registered sender is taken out and sends the decision. Without one
nothing happens. -/
def notify_approval (s : Approvals R) (call_id : Text) (decision : ReviewDecision) :
    Approvals R :=
  match s.pending_approvals call_id with
  | some r =>
    { s with
      pending_approvals := Function.update s.pending_approvals call_id none
      received := Function.update s.received r (some decision) }
  | none => s

/-- One step. A client answers requests that it has received. -/
def step (request : R → ApprovalRequest) (s : Approvals R) : Action R → Option (Approvals R)
  | .send_event r =>
    match s.stage r with
    | .idle =>
      some { s with stage := Function.update s.stage r .sent, tx_event := s.tx_event ++ [r] }
    | _ => none
  | .register r =>
    match s.stage r with
    | .sent =>
      some { s with
        stage := Function.update s.stage r .registered
        pending_approvals :=
          Function.update s.pending_approvals (request r).effective_approval_id (some r) }
    | _ => none
  | .client_receive =>
    match s.tx_event with
    | r :: rest => some { s with tx_event := rest, seen := r :: s.seen }
    | [] => none
  | .client_answer r decision =>
    if r ∈ s.seen then
      some (notify_approval { s with answers := s.answers ++ [(r, decision)] }
        (request r).effective_approval_id decision)
    else none

/-- The answers to a request. -/
def answers_to (s : Approvals R) (r : R) : List ReviewDecision :=
  (s.answers.filter (fun p => p.1 = r)).map Prod.snd

/-- The receiver of every request has got just what the client has answered. -/
def AllDelivered (s : Approvals R) : Prop := ∀ r, s.answers_to r = (s.received r).toList

/-- The request has registered its sender and has no answer. -/
def Waits (s : Approvals R) (r : R) : Prop := s.stage r = .registered ∧ s.received r = none

/-- An answer is given to a request that waits for it. -/
def Answerable (s : Approvals R) : Action R → Prop
  | .client_answer r _ => s.Waits r
  | _ => True

/-! ## What a step keeps -/

/-- The registered senders are those of the requests that wait. -/
structure Registered (request : R → ApprovalRequest) (s : Approvals R) : Prop where
  waiting : ∀ id r, s.pending_approvals id = some r ↔
    id = (request r).effective_approval_id ∧ s.Waits r
  /-- Only a registered request gets an answer, and the client has given it. -/
  answered : ∀ r d, s.received r = some d → s.stage r = .registered ∧ d ∈ s.answers_to r

theorem registered_start (request : R → ApprovalRequest) :
    Registered request (start : Approvals R) where
  waiting := by simp [Waits, start]
  answered := by simp [start]

theorem answers_to_append (s : Approvals R) (r q : R) (d : ReviewDecision) :
    answers_to { s with answers := s.answers ++ [(r, d)] } q =
      if r = q then s.answers_to q ++ [d] else s.answers_to q := by
  unfold answers_to
  by_cases h : r = q
  · simp [h]
  · simp [h]

variable {request : R → ApprovalRequest}

/-- What an answer does: the receiver of a request that waits gets it, otherwise nothing gets it. -/
theorem notify_approval_cases (h_ids : Function.Injective fun r =>
    (request r).effective_approval_id) {s : Approvals R} (h : Registered request s) (r : R)
    (d : ReviewDecision) (answers : List (R × ReviewDecision)) :
    (s.Waits r ∧ notify_approval { s with answers } (request r).effective_approval_id d =
      { s with
        answers
        pending_approvals :=
          Function.update s.pending_approvals (request r).effective_approval_id none
        received := Function.update s.received r (some d) }) ∨
    (¬ s.Waits r ∧ notify_approval { s with answers } (request r).effective_approval_id d =
      { s with answers }) := by
  unfold notify_approval
  dsimp only
  rcases hp : s.pending_approvals (request r).effective_approval_id with _ | r'
  · refine .inr ⟨?_, rfl⟩
    intro hw
    rw [(h.waiting _ r).mpr ⟨rfl, hw⟩] at hp
    cases hp
  · obtain ⟨hid, hw⟩ := (h.waiting _ r').mp hp
    obtain rfl : r = r' := h_ids hid
    exact .inl ⟨hw, rfl⟩

/-- What a step can do. -/
theorem step_cases (h_ids : Function.Injective fun r => (request r).effective_approval_id)
    {s t : Approvals R} (h : Registered request s) {a : Action R}
    (hstep : step request s a = some t) :
    (∃ r, a = .send_event r ∧ s.stage r = .idle ∧
      t = { s with stage := Function.update s.stage r .sent, tx_event := s.tx_event ++ [r] }) ∨
    (∃ r, a = .register r ∧ s.stage r = .sent ∧
      t = { s with
        stage := Function.update s.stage r .registered
        pending_approvals :=
          Function.update s.pending_approvals (request r).effective_approval_id (some r) }) ∨
    (∃ r rest, a = .client_receive ∧ s.tx_event = r :: rest ∧
      t = { s with tx_event := rest, seen := r :: s.seen }) ∨
    (∃ r d, a = .client_answer r d ∧ s.Waits r ∧
      t = { s with
        answers := s.answers ++ [(r, d)]
        pending_approvals :=
          Function.update s.pending_approvals (request r).effective_approval_id none
        received := Function.update s.received r (some d) }) ∨
    (∃ r d, a = .client_answer r d ∧ ¬ s.Waits r ∧
      t = { s with answers := s.answers ++ [(r, d)] }) := by
  cases a with
  | send_event r =>
    simp only [step] at hstep
    split at hstep
    · exact .inl ⟨r, rfl, ‹_›, (Option.some.inj hstep).symm⟩
    · cases hstep
  | register r =>
    simp only [step] at hstep
    split at hstep
    · exact .inr (.inl ⟨r, rfl, ‹_›, (Option.some.inj hstep).symm⟩)
    · cases hstep
  | client_receive =>
    simp only [step] at hstep
    split at hstep
    · exact .inr (.inr (.inl ⟨_, _, rfl, ‹_›, (Option.some.inj hstep).symm⟩))
    · cases hstep
  | client_answer r d =>
    simp only [step] at hstep
    split at hstep
    · have ht := (Option.some.inj hstep).symm
      rcases notify_approval_cases h_ids h r d (s.answers ++ [(r, d)]) with ⟨hw, hn⟩ | ⟨hw, hn⟩
      · exact .inr (.inr (.inr (.inl ⟨r, d, rfl, hw, ht.trans hn⟩)))
      · exact .inr (.inr (.inr (.inr ⟨r, d, rfl, hw, ht.trans hn⟩)))
    · cases hstep

/-- A request at an earlier stage has no answer. -/
theorem Registered.no_answer {s : Approvals R} (h : Registered request s) {r : R}
    (hstage : s.stage r ≠ .registered) : s.received r = none := by
  rcases hr : s.received r with _ | d
  · rfl
  · exact absurd (h.answered r d hr).1 hstage

/-- A request that goes on to a stage has no answer, before and after. -/
theorem Registered.stage_answered {s : Approvals R} (h : Registered request s) {r : R}
    (hstage : s.stage r ≠ .registered) (stage : Stage) (q : R) (d : ReviewDecision)
    (hd : s.received q = some d) :
    Function.update s.stage r stage q = .registered ∧ d ∈ s.answers_to q := by
  have hne : q ≠ r := by
    rintro rfl
    rw [h.no_answer hstage] at hd
    cases hd
  rw [Function.update_of_ne hne]
  exact h.answered q d hd

/-- A change to the entry of one request leaves the registered senders those that wait, when the
entry tells whether this request waits and the others wait as before. -/
theorem Registered.waiting_update
    (h_ids : Function.Injective fun r => (request r).effective_approval_id) {s t : Approvals R}
    (h : Registered request s) {r : R} {entry : Option R}
    (hpending : t.pending_approvals =
      Function.update s.pending_approvals (request r).effective_approval_id entry)
    (hentry : ∀ q, entry = some q ↔ q = r ∧ t.Waits r)
    (hothers : ∀ q ≠ r, t.Waits q ↔ s.Waits q) (id : Text) (q : R) :
    t.pending_approvals id = some q ↔
      id = (request q).effective_approval_id ∧ t.Waits q := by
  rw [hpending]
  by_cases hid : id = (request r).effective_approval_id
  · subst hid
    rw [Function.update_self, hentry]
    constructor
    · rintro ⟨rfl, hwaits⟩
      exact ⟨rfl, hwaits⟩
    · rintro ⟨heq, hwaits⟩
      obtain rfl : r = q := h_ids heq
      exact ⟨rfl, hwaits⟩
  · rw [Function.update_of_ne hid, h.waiting]
    refine and_congr_right fun heq => ?_
    have hne : q ≠ r := fun hqr => hid (by rw [heq, hqr])
    exact (hothers q hne).symm

theorem step_registered (h_ids : Function.Injective fun r => (request r).effective_approval_id)
    {s t : Approvals R} (h : Registered request s) {a : Action R}
    (hstep : step request s a = some t) : Registered request t := by
  rcases step_cases h_ids h hstep with ⟨r, rfl, hidle, rfl⟩ | ⟨r, rfl, hsent, rfl⟩ |
    ⟨r, rest, rfl, -, rfl⟩ | ⟨r, d, rfl, hw, rfl⟩ | ⟨r, d, rfl, hw, rfl⟩
  · have hstage : s.stage r ≠ .registered := by simp [hidle]
    refine ⟨fun id q => (h.waiting id q).trans ?_, h.stage_answered hstage .sent⟩
    by_cases hq : q = r
    · subst hq
      simp [Waits, hidle]
    · simp [Waits, hq]
  · have hstage : s.stage r ≠ .registered := by simp [hsent]
    refine ⟨h.waiting_update h_ids rfl ?_ ?_, h.stage_answered hstage .registered⟩
    · intro q
      simp [Waits, h.no_answer hstage, eq_comm]
    · intro q hne
      simp [Waits, hne]
  · exact ⟨h.waiting, h.answered⟩
  · refine ⟨h.waiting_update h_ids rfl ?_ ?_, fun q d' hd => ?_⟩
    · intro q
      simp [Waits]
    · intro q hne
      simp [Waits, hne]
    · change _ ∧ d' ∈ answers_to { s with answers := s.answers ++ [(r, d)] } q
      rw [answers_to_append]
      by_cases hqr : q = r
      · subst hqr
        obtain rfl : d = d' := by simpa using hd
        exact ⟨hw.1, by simp⟩
      · dsimp only at hd
        rw [Function.update_of_ne hqr] at hd
        rw [if_neg (Ne.symm hqr)]
        exact h.answered q d' hd
  · refine ⟨h.waiting, fun q d' hd => ?_⟩
    obtain ⟨hstage, hmem⟩ := h.answered q d' hd
    rw [answers_to_append]
    exact ⟨hstage, by split <;> simp [hmem]⟩

/-- A step leaves every answer delivered exactly when it was so before, and the step does not
answer a request that does not wait. -/
theorem step_delivered (h_ids : Function.Injective fun r => (request r).effective_approval_id)
    {s t : Approvals R} (h : Registered request s) {a : Action R}
    (hstep : step request s a = some t) : AllDelivered t ↔ AllDelivered s ∧ Answerable s a := by
  rcases step_cases h_ids h hstep with ⟨r, rfl, -, rfl⟩ | ⟨r, rfl, -, rfl⟩ |
    ⟨r, rest, rfl, -, rfl⟩ | ⟨r, d, rfl, hw, rfl⟩ | ⟨r, d, rfl, hw, rfl⟩
  · exact (and_iff_left trivial).symm
  · exact (and_iff_left trivial).symm
  · exact (and_iff_left trivial).symm
  · have hsame : ∀ q, (answers_to { s with answers := s.answers ++ [(r, d)] } q =
        (Function.update s.received r (some d) q).toList) ↔
          s.answers_to q = (s.received q).toList := by
      intro q
      rw [answers_to_append]
      by_cases hqr : r = q
      · subst hqr
        simp [hw.2]
      · simp [hqr, Function.update_of_ne (Ne.symm hqr)]
    constructor
    · intro hall
      exact ⟨fun q => (hsame q).mp (hall q), hw⟩
    · rintro ⟨hall, -⟩
      exact fun q => (hsame q).mpr (hall q)
  · constructor
    · intro hall
      have hr := hall r
      rw [answers_to_append, if_pos rfl] at hr
      -- the receiver would hold this answer, and with it an earlier one
      rcases hrec : s.received r with _ | d'
      · simp [hrec] at hr
      · have hmem := (h.answered r d' hrec).2
        simp only [hrec, Option.toList_some] at hr
        rw [List.append_eq_singleton_iff] at hr
        rcases hr with ⟨hnil, -⟩ | ⟨-, hcons⟩
        · rw [hnil] at hmem
          cases hmem
        · cases hcons
    · rintro ⟨-, hans⟩
      exact absurd hans hw

/-- For every run of requests with distinct ids and every order of their steps and those of the
client: each answer is delivered to the receiver of its request exactly when each is given to a
request that has registered its sender and has no answer yet. -/
theorem delivered_iff_requests_wait (request : R → ApprovalRequest)
    (h_ids : Function.Injective fun r => (request r).effective_approval_id)
    (actions : List (Action R)) (s : Approvals R)
    (hrun : actions.foldlM (step request) start = some s) :
    AllDelivered s ↔ Guarded (step request) Answerable start actions := by
  rw [guarded_iff (G := Answerable) (I := Registered request)
    (fun s a t hs ht => step_registered h_ids hs ht)
    (fun s a t hs ht => step_delivered h_ids hs ht) (registered_start request) hrun]
  have hstart : AllDelivered (start : Approvals R) := fun _ => rfl
  exact and_iff_right hstart

instance (s : Approvals R) : (a : Action R) → Decidable (Answerable s a)
  | .client_answer r _ => inferInstanceAs (Decidable (s.stage r = .registered ∧ s.received r = none))
  | .send_event _ | .register _ | .client_receive => isTrue trivial

end steps

/-! ## Two requests -/

/-- A subcommand of one command, and a patch. -/
def two_requests : Bool → ApprovalRequest
  | true => .command "call".toList (some "sub".toList)
  | false => .patch "call".toList

/-- Both requests register before the client answers, the patch first. -/
def answered_in_time : List (Action Bool) :=
  [.send_event true, .send_event false, .client_receive, .register false, .register true,
    .client_receive, .client_answer false .Denied, .client_answer true .Approved]

theorem answers_in_time_are_delivered :
    ∃ s, answered_in_time.foldlM (step two_requests) start = some s ∧ AllDelivered s ∧
      s.received true = some .Approved ∧ s.received false = some .Denied := by
  have hdistinct : Function.Injective fun r => (two_requests r).effective_approval_id := by
    intro r q
    revert r q
    decide
  have hin_time : Guarded (step two_requests) Answerable start answered_in_time := by
    decide +kernel
  have hrun : (answered_in_time.foldlM (step two_requests) start).map
      (fun s => (s.received true, s.received false)) = some (some .Approved, some .Denied) := by
    decide +kernel
  obtain ⟨s, hs, hreceived⟩ := Option.map_eq_some_iff.mp hrun
  obtain ⟨htrue, hfalse⟩ := Prod.mk.inj hreceived
  exact ⟨s, hs, (delivered_iff_requests_wait two_requests hdistinct answered_in_time s hs).mpr
    hin_time, htrue, hfalse⟩

/-- The client answers between the event and the registration: the answer is gone, and the request
waits for ever. -/
theorem early_answer_is_lost :
    ¬ ∀ (request : Unit → ApprovalRequest) (actions : List (Action Unit)) (s : Approvals Unit),
      actions.foldlM (step request) start = some s → AllDelivered s := by
  intro hall
  have hrun : (([.send_event (), .client_receive, .client_answer () .Approved,
      .register ()] : List (Action Unit)).foldlM
        (step fun _ => .patch "call".toList) start).map
          (fun s => (s.answers_to (), s.received ())) = some ([.Approved], none) := by
    decide +kernel
  obtain ⟨s, hs, hview⟩ := Option.map_eq_some_iff.mp hrun
  obtain ⟨hanswers, hreceived⟩ := Prod.mk.inj hview
  have hdelivered := hall _ _ s hs ()
  rw [hanswers, hreceived] at hdelivered
  cases hdelivered

end Approvals

end Ecode.approvals
