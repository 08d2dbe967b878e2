-- The input that waits for the model (core/src/codex/session.rs): the queues of a
-- session, the calls that take input out of them, and what these calls hand over.
import Ecode.Runs
import Ecode.Text

open Ecode.runs

namespace Ecode.session_input

-- `β` is a `ResponseInputItem`.
variable {β : Type}

/-! ## The queues -/

structure QueuedUserInput (β : Type) where
  submission_id : Text
  response_item : β
  core_items : List β
  deriving DecidableEq, Repr

inductive FollowUpTurnAction (β : Type) where
  | PostTurnPendingInput
  | ManualCompact (sub_id : Text)
  | PendingInput
  | QueuedUserInput (queued : QueuedUserInput β)
  deriving DecidableEq, Repr

def MAX_PENDING_MANUAL_COMPACTS : Nat := 64

/-- The queues in the session state. -/
structure State (β : Type) where
  pending_input : List β
  pending_user_input : List (QueuedUserInput β)
  pending_post_turn_input : List β
  pending_manual_compacts : List Text
  deriving DecidableEq, Repr

namespace State

def default : State β := ⟨[], [], [], []⟩

/-- The user inputs that wait, as items for the model. -/
def user_items (s : State β) : List β := s.pending_user_input.map (·.response_item)

/-- What waits in the queue of pending input and in the queue of user input. -/
def waiting (s : State β) : List β := s.pending_input ++ s.user_items

/-- All input that is in a queue. -/
def queued (s : State β) : List β := s.waiting ++ s.pending_post_turn_input

/-! ## The operations -/

def queue_user_input (s : State β) (queued : QueuedUserInput β) : State β :=
  { s with pending_user_input := s.pending_user_input ++ [queued] }

/-- The push of `add_pending_input`, `inject_input` and `enqueue_out_of_turn_item`, of the item
after its limits are enforced. -/
def push_pending_input (s : State β) (item : β) : State β :=
  { s with pending_input := s.pending_input ++ [item] }

def enqueue_post_turn_item (s : State β) (item : β) : State β :=
  { s with pending_post_turn_input := s.pending_post_turn_input ++ [item] }

/-- The oldest requests are dropped while the queue is full. -/
def enqueue_manual_compact (s : State β) (sub_id : Text) : State β :=
  let surplus := s.pending_manual_compacts.length + 1 - MAX_PENDING_MANUAL_COMPACTS
  { s with pending_manual_compacts := s.pending_manual_compacts.drop surplus ++ [sub_id] }

def get_pending_input_filtered (s : State β) (drain_user_inputs : Bool) : List β × State β :=
  if s.pending_input = [] ∧ (drain_user_inputs ∨ s.pending_user_input = []) then ([], s)
  else
    (s.pending_input ++ s.user_items,
      { s with
        pending_input := []
        pending_user_input := if drain_user_inputs then [] else s.pending_user_input })

def get_pending_input (s : State β) : List β × State β := s.get_pending_input_filtered true

def take_follow_up_turn_action (s : State β) : Option (FollowUpTurnAction β) × State β :=
  if s.pending_post_turn_input ≠ [] then
    (some .PostTurnPendingInput,
      { s with
        pending_input := s.pending_input ++ s.pending_post_turn_input
        pending_post_turn_input := [] })
  else
    match s.pending_manual_compacts with
    | sub_id :: rest => (some (.ManualCompact sub_id), { s with pending_manual_compacts := rest })
    | [] =>
      if s.pending_input ≠ [] then (some .PendingInput, s)
      else
        match s.pending_user_input with
        | [] => (none, s)
        | queued :: rest =>
          (some (.QueuedUserInput queued), { s with pending_user_input := rest })

/-! ## What the operations move -/

theorem queue_user_input_queued (s : State β) (queued : QueuedUserInput β) :
    (s.queue_user_input queued).queued.Perm (s.queued ++ [queued.response_item]) := by
  simp only [State.queued, waiting, queue_user_input, user_items, List.map_append, List.map_cons,
    List.map_nil, List.append_assoc]
  exact (List.perm_append_comm.append_left _).append_left _

theorem push_pending_input_queued (s : State β) (item : β) :
    (s.push_pending_input item).queued.Perm (s.queued ++ [item]) := by
  simp only [State.queued, waiting, push_pending_input, user_items, List.append_assoc]
  have hmove (rest : List β) : List.Perm ([item] ++ rest) (rest ++ [item]) := List.perm_append_comm
  exact List.Perm.append_left _ ((hmove _).trans (by rw [List.append_assoc]))

theorem enqueue_post_turn_item_queued (s : State β) (item : β) :
    (s.enqueue_post_turn_item item).queued = s.queued ++ [item] := by
  simp [State.queued, waiting, enqueue_post_turn_item, user_items]

theorem get_pending_input_eq (s : State β) :
    s.get_pending_input = if s.pending_input = [] then ([], s)
      else (s.waiting, { s with pending_input := [], pending_user_input := [] }) := by
  simp [get_pending_input, get_pending_input_filtered, waiting]

/-- Without a drain the user inputs are returned too, and stay queued. -/
theorem get_pending_input_filtered_eq (s : State β) :
    s.get_pending_input_filtered false = (s.waiting, { s with pending_input := [] }) := by
  unfold get_pending_input_filtered
  by_cases h : s.pending_input = [] ∧ s.pending_user_input = []
  · have hsame : { s with pending_input := [] } = s := by rw [← h.1]
    rw [if_pos (by simpa using h), hsame, waiting, user_items, h.1, h.2]
    rfl
  · simp [h, waiting]

/-- What is returned was queued, and the rest is still queued. -/
theorem get_pending_input_queued (s : State β) :
    s.get_pending_input.1 ++ s.get_pending_input.2.queued = s.queued := by
  rw [get_pending_input_eq]
  split_ifs with h
  · rfl
  · simp [State.queued, waiting, user_items]

/-- Everything that waits is returned, unless there are only user inputs. -/
theorem get_pending_input_eq_waiting (s : State β) :
    s.get_pending_input.1 = s.waiting ↔ s.pending_input ≠ [] ∨ s.pending_user_input = [] := by
  rw [get_pending_input_eq]
  by_cases h : s.pending_input = []
  · rw [if_pos h]
    simp [h, waiting, user_items]
  · simp [h]

theorem get_pending_input_filtered_queued (s : State β) :
    s.pending_input ++ (s.get_pending_input_filtered false).2.queued = s.queued := by
  rw [get_pending_input_filtered_eq]
  simp [State.queued, waiting, user_items]

theorem get_pending_input_filtered_copies (s : State β) :
    (s.get_pending_input_filtered false).1.drop s.pending_input.length = s.user_items := by
  rw [get_pending_input_filtered_eq]
  simp [waiting]

end State

/-- The item that a follow-up action hands over. -/
def FollowUpTurnAction.item : FollowUpTurnAction β → Option β
  | .QueuedUserInput queued => some queued.response_item
  | _ => none

theorem State.take_follow_up_turn_action_queued (s : State β) :
    ((s.take_follow_up_turn_action.1.bind FollowUpTurnAction.item).toList ++
      s.take_follow_up_turn_action.2.queued).Perm s.queued := by
  unfold take_follow_up_turn_action
  split_ifs with hpost hpending
  · simp only [State.queued, waiting, user_items, Option.bind_some, FollowUpTurnAction.item,
      Option.toList_none, List.nil_append, List.append_nil, List.append_assoc]
    exact List.perm_append_comm.append_left _
  · split
    · exact List.Perm.refl _
    · exact List.Perm.refl _
  · split
    · exact List.Perm.refl _
    · rw [not_not] at hpending
      split
      · exact List.Perm.refl _
      · rename_i hqueued
        simp [State.queued, waiting, user_items, hqueued, hpending, FollowUpTurnAction.item]

/-! ## Runs -/

inductive Call (β : Type) where
  | queue_user_input (queued : QueuedUserInput β)
  | push_pending_input (item : β)
  | enqueue_post_turn_item (item : β)
  | enqueue_manual_compact (sub_id : Text)
  | get_pending_input_filtered (drain_user_inputs : Bool)
  | take_follow_up_turn_action
  deriving DecidableEq, Repr

/-- A session with what was queued and handed over so far. -/
structure Session (β : Type) where
  state : State β
  /-- All input that was put into a queue. -/
  put : List β
  /-- The input that calls took out of the queues and handed to the model. -/
  taken : List β
  /-- The input that calls handed to the model and left in its queue. -/
  copied : List β
  /-- For each `get_pending_input`, what was waiting and what was returned. -/
  gets : List (List β × List β)

namespace Session

def start : Session β := ⟨.default, [], [], [], []⟩

/-- One call. -/
def step (s : Session β) : Call β → Option (Session β)
  | .queue_user_input queued =>
    some { s with state := s.state.queue_user_input queued, put := s.put ++ [queued.response_item] }
  | .push_pending_input item =>
    some { s with state := s.state.push_pending_input item, put := s.put ++ [item] }
  | .enqueue_post_turn_item item =>
    some { s with state := s.state.enqueue_post_turn_item item, put := s.put ++ [item] }
  | .enqueue_manual_compact sub_id =>
    some { s with state := s.state.enqueue_manual_compact sub_id }
  | .get_pending_input_filtered true =>
    some { s with
      state := s.state.get_pending_input.2
      taken := s.taken ++ s.state.get_pending_input.1
      gets := s.gets ++ [(s.state.waiting, s.state.get_pending_input.1)] }
  | .get_pending_input_filtered false =>
    -- the pending input is taken out, what is returned after it is still queued
    some { s with
      state := (s.state.get_pending_input_filtered false).2
      taken := s.taken ++ s.state.pending_input
      copied := s.copied ++
        (s.state.get_pending_input_filtered false).1.drop s.state.pending_input.length }
  | .take_follow_up_turn_action =>
    some { s with
      state := s.state.take_follow_up_turn_action.2
      taken := s.taken ++
        (s.state.take_follow_up_turn_action.1.bind FollowUpTurnAction.item).toList }

/-- Every input that was put into a queue is either still queued or was handed to the model by
exactly one call. -/
def HandedOnce (s : Session β) : Prop := (s.taken ++ s.copied ++ s.state.queued).Perm s.put

/-- Every `get_pending_input` returned what was waiting. -/
def GotAll (s : Session β) : Prop := ∀ g ∈ s.gets, g.2 = g.1

/-- Input is queued as a user input only when other input is pending too, for a call that drains
it; for a call that does not, none is queued. -/
def Served (s : Session β) : Call β → Prop
  | .get_pending_input_filtered true =>
    s.state.pending_input ≠ [] ∨ s.state.pending_user_input = []
  | .get_pending_input_filtered false => s.state.pending_user_input = []
  | _ => True

/-! ## What a call keeps -/

/-- What is queued and what was taken out is what was put in. -/
def Conserved (s : Session β) : Prop := (s.taken ++ s.state.queued).Perm s.put

theorem step_conserved {s t : Session β} (h : s.Conserved) {c : Call β}
    (hstep : s.step c = some t) : t.Conserved := by
  have hput : ∀ (state : State β) (item : β), state.queued.Perm (s.state.queued ++ [item]) →
      (s.taken ++ state.queued).Perm (s.put ++ [item]) := by
    intro state item hstate
    refine (hstate.append_left s.taken).trans ?_
    rw [← List.append_assoc]
    exact h.append_right _
  have htake : ∀ (state : State β) (items : List β), (items ++ state.queued).Perm s.state.queued →
      (s.taken ++ items ++ state.queued).Perm s.put := by
    intro state items hstate
    rw [List.append_assoc]
    exact (hstate.append_left s.taken).trans h
  cases c with
  | queue_user_input queued =>
    obtain rfl := Option.some.inj hstep
    exact hput _ _ (s.state.queue_user_input_queued queued)
  | push_pending_input item =>
    obtain rfl := Option.some.inj hstep
    exact hput _ _ (s.state.push_pending_input_queued item)
  | enqueue_post_turn_item item =>
    obtain rfl := Option.some.inj hstep
    exact hput _ _ (.of_eq (s.state.enqueue_post_turn_item_queued item))
  | enqueue_manual_compact sub_id =>
    obtain rfl := Option.some.inj hstep
    exact h
  | get_pending_input_filtered drain =>
    cases drain with
    | true =>
      obtain rfl := Option.some.inj hstep
      exact htake _ _ (.of_eq s.state.get_pending_input_queued)
    | false =>
      obtain rfl := Option.some.inj hstep
      exact htake _ _ (.of_eq s.state.get_pending_input_filtered_queued)
  | take_follow_up_turn_action =>
    obtain rfl := Option.some.inj hstep
    exact htake _ _ s.state.take_follow_up_turn_action_queued

/-- While the calls that take input out are conserving, input was handed over once exactly when
none was copied. -/
theorem Conserved.handed_once_iff {s : Session β} (h : s.Conserved) :
    s.HandedOnce ↔ s.copied = [] := by
  constructor
  · intro hhanded
    have hlen := hhanded.length_eq
    have hlen' := List.Perm.length_eq h
    simp only [List.length_append] at hlen hlen'
    exact List.length_eq_zero_iff.mp (by omega)
  · intro hcopied
    unfold HandedOnce
    rwa [hcopied, List.append_nil]

theorem step_served {s t : Session β} {c : Call β} (hstep : s.step c = some t) :
    (t.copied = [] ∧ t.GotAll) ↔ (s.copied = [] ∧ s.GotAll) ∧ s.Served c := by
  cases c with
  | get_pending_input_filtered drain =>
    cases drain with
    | true =>
      simp only [step, Option.some.injEq] at hstep
      subst hstep
      simp only [GotAll, List.forall_mem_append, List.forall_mem_singleton, Served,
        ← s.state.get_pending_input_eq_waiting]
      exact and_assoc.symm
    | false =>
      simp only [step, Option.some.injEq] at hstep
      subst hstep
      simp only [s.state.get_pending_input_filtered_copies, List.append_eq_nil_iff, Served]
      rw [show s.state.user_items = [] ↔ s.state.pending_user_input = [] from List.map_eq_nil_iff]
      exact and_right_comm
  | queue_user_input =>
    obtain rfl := Option.some.inj hstep
    exact (and_iff_left trivial).symm
  | push_pending_input =>
    obtain rfl := Option.some.inj hstep
    exact (and_iff_left trivial).symm
  | enqueue_post_turn_item =>
    obtain rfl := Option.some.inj hstep
    exact (and_iff_left trivial).symm
  | enqueue_manual_compact =>
    obtain rfl := Option.some.inj hstep
    exact (and_iff_left trivial).symm
  | take_follow_up_turn_action =>
    obtain rfl := Option.some.inj hstep
    exact (and_iff_left trivial).symm

theorem start_conserved : (start : Session β).Conserved := List.Perm.refl _

/-- For every order of calls: the calls that take input out of a queue never drop an input or take
it twice; and every input is handed over by exactly one call and every `get_pending_input` returns
all that waits exactly when a draining call never finds user inputs alone, and a call that does not
drain finds none. -/
theorem handed_once_iff_served (calls : List (Call β)) (s : Session β)
    (hrun : calls.foldlM step start = some s) :
    (s.taken ++ s.state.queued).Perm s.put ∧
      (s.HandedOnce ∧ s.GotAll ↔ Guarded step Served start calls) := by
  have hconserved : s.Conserved := by
    have hguarded : Guarded step (fun _ _ => True) (start : Session β) calls :=
      (guarded_iff (P := fun _ => True) (I := fun _ => True) (fun _ _ _ _ _ => trivial)
        (fun _ _ _ _ _ => by simp) trivial hrun).mp trivial |>.2
    exact hguarded.invariant (fun _ _ _ h _ ht => step_conserved h ht) start_conserved hrun
  refine ⟨hconserved, ?_⟩
  rw [hconserved.handed_once_iff, guarded_iff (G := Served) (I := fun _ => True)
    (P := fun s => s.copied = [] ∧ s.GotAll) (fun _ _ _ _ _ => trivial)
    (fun _ _ _ _ ht => step_served ht) trivial hrun]
  exact and_iff_right ⟨rfl, by simp [GotAll, start]⟩

instance [DecidableEq β] (s : Session β) : (c : Call β) → Decidable (s.Served c)
  | .get_pending_input_filtered true =>
    inferInstanceAs (Decidable (s.state.pending_input ≠ [] ∨ s.state.pending_user_input = []))
  | .get_pending_input_filtered false =>
    inferInstanceAs (Decidable (s.state.pending_user_input = []))
  | .queue_user_input _ | .push_pending_input _ | .enqueue_post_turn_item _
  | .enqueue_manual_compact _ | .take_follow_up_turn_action => isTrue trivial

/-! ## Runs of one user -/

def from_user (item : Char) : QueuedUserInput Char := ⟨"sub".toList, item, [item]⟩

/-- What was put in, taken out and copied, and what the gets saw. -/
def handed (s : Session Char) : List Char × List Char × List Char × List (List Char × List Char) :=
  (s.put, s.taken, s.copied, s.gets)

theorem pending_and_user_input_are_handed_once :
    ∃ s, ([.queue_user_input (from_user 'u'), .push_pending_input 'p',
        .get_pending_input_filtered true, .queue_user_input (from_user 'v'),
        .take_follow_up_turn_action] : List (Call Char)).foldlM step start = some s ∧
      handed s = (['u', 'p', 'v'], ['p', 'u', 'v'], [], [(['p', 'u'], ['p', 'u'])]) ∧
      s.HandedOnce ∧ s.GotAll := by
  have hserved : Guarded step Served (start : Session Char)
      [.queue_user_input (from_user 'u'), .push_pending_input 'p',
        .get_pending_input_filtered true, .queue_user_input (from_user 'v'),
        .take_follow_up_turn_action] := by decide +kernel
  refine ⟨_, rfl, by decide, ?_⟩
  exact (handed_once_iff_served _ _ rfl).2.mpr hserved

/-- A user input that is queued alone is not returned; and one that a call has copied is handed
over again when it is taken. -/
theorem user_input_is_missed_or_handed_twice :
    (∃ s, ([.queue_user_input (from_user 'u'), .get_pending_input_filtered true] :
        List (Call Char)).foldlM step start = some s ∧ ¬ s.GotAll) ∧
    ∃ s, ([.queue_user_input (from_user 'u'), .get_pending_input_filtered false,
        .take_follow_up_turn_action] : List (Call Char)).foldlM step start = some s ∧
      handed s = (['u'], ['u'], ['u'], []) ∧ ¬ s.HandedOnce := by
  refine ⟨⟨_, rfl, ?_⟩, ⟨_, rfl, rfl, ?_⟩⟩
  · intro hgot
    have hmissed := hgot (['u'], []) (by decide)
    cases hmissed
  · intro hhanded
    exact absurd hhanded.length_eq (by decide)

end Session

end Ecode.session_input
