-- The adapter that puts the pieces of a Chat Completions stream together again
-- (core/src/chat_completions.rs): what it forwards and what it adds at the end of a turn.
import Ecode.ChatTurns

namespace Ecode.chat_completions

open json

/-! ## The adapter -/

inductive AggregateMode where
  | AggregatedOnly
  | Streaming
  deriving DecidableEq

/-- What is gathered of a turn. -/
structure Cumulative where
  cumulative : Text
  cumulative_reasoning : Text
  cumulative_item_id : Option Text

namespace Cumulative

def first_output_text (content : List ContentItem) : Option Text :=
  content.findSome? fun
    | .OutputText text => some text
    | _ => none

/-- An item that is done. The text of an assistant message counts only before any delta. -/
def take_item (item : ResponseItem (List Text)) (c : Cumulative) : Cumulative :=
  match item with
  | .Message id role content _ _ =>
    if role = "assistant".toList ∧ c.cumulative = [] then
      { c with
        cumulative := c.cumulative ++ (first_output_text content).getD []
        cumulative_item_id := id.or c.cumulative_item_id }
    else c
  | .Reasoning id _ _ _ =>
    { c with cumulative_item_id := (id.filter (· ≠ [])).or c.cumulative_item_id }
  | _ => c

def push_text (delta : Text) (item_id : Option Text) (c : Cumulative) : Cumulative :=
  { c with
    cumulative := c.cumulative ++ delta
    cumulative_item_id := c.cumulative_item_id.or item_id }

def push_reasoning (delta : Text) (item_id : Option Text) (c : Cumulative) : Cumulative :=
  { c with
    cumulative_reasoning := c.cumulative_reasoning ++ delta
    cumulative_item_id := c.cumulative_item_id.or item_id }

def aggregated_reasoning (c : Cumulative) : ResponseEvent :=
  .OutputItemDone (.Reasoning c.cumulative_item_id [] (some [c.cumulative_reasoning]) none)

def aggregated_message (c : Cumulative) : ResponseEvent :=
  .OutputItemDone (.Message c.cumulative_item_id "assistant".toList [.OutputText c.cumulative] none
    none)

/-- An event of the inner stream: what is gathered then, and the events that the adapter sends for
it, of which all but the first are pending. -/
def handle (mode : AggregateMode) (c : Cumulative) : ResponseEvent → Cumulative × List ResponseEvent
  | .OutputItemDone item => (c.take_item item, [.OutputItemDone item])
  | .Completed response_id =>
    let reasoning :=
      if c.cumulative_reasoning ≠ [] ∧ mode = .AggregatedOnly then [c.aggregated_reasoning] else []
    let message := if c.cumulative ≠ [] then [c.aggregated_message] else []
    ({ c with
      cumulative := []
      cumulative_reasoning := if mode = .AggregatedOnly then [] else c.cumulative_reasoning },
      reasoning ++ message ++ [.Completed response_id])
  | .Created response_id response_model => (c, [.Created response_id response_model])
  | .OutputTextDelta delta item_id =>
    (c.push_text delta item_id,
      if mode = .Streaming then [.OutputTextDelta delta item_id] else [])
  | .ReasoningContentDelta delta item_id =>
    (c.push_reasoning delta item_id,
      if mode = .Streaming then [.ReasoningContentDelta delta item_id] else [])

end Cumulative

structure AggregatedChatStream where
  inner : List (Except Text ResponseEvent)
  gathered : Cumulative
  pending : List ResponseEvent
  mode : AggregateMode

namespace AggregatedChatStream

def new (inner : List (Except Text ResponseEvent)) (mode : AggregateMode) : AggregatedChatStream :=
  ⟨inner, ⟨[], [], none⟩, [], mode⟩

/-- The loop of `poll_next` over the inner stream. -/
def poll_inner (mode : AggregateMode) : Cumulative → List (Except Text ResponseEvent) →
    Option (Except Text ResponseEvent) × AggregatedChatStream
  | c, [] => (none, ⟨[], c, [], mode⟩)
  | c, .error e :: inner => (some (.error e), ⟨inner, c, [], mode⟩)
  | c, .ok event :: inner =>
    match c.handle mode event with
    | (c, []) => poll_inner mode c inner
    | (c, event :: pending) => (some (.ok event), ⟨inner, c, pending, mode⟩)

def poll_next (s : AggregatedChatStream) :
    Option (Except Text ResponseEvent) × AggregatedChatStream :=
  match s.pending with
  | event :: pending => (some (.ok event), { s with pending })
  | [] => poll_inner s.mode s.gathered s.inner

/-- What is left to send at most. -/
def left (s : AggregatedChatStream) : Nat := 3 * s.inner.length + s.pending.length

end AggregatedChatStream

theorem handle_length (mode : AggregateMode) (c : Cumulative) (event : ResponseEvent) :
    (c.handle mode event).2.length ≤ 3 := by
  cases event with
  | OutputItemDone item => simp [Cumulative.handle]
  | Completed response_id =>
    unfold Cumulative.handle
    dsimp only
    split_ifs <;> simp
  | Created response_id response_model => simp [Cumulative.handle]
  | OutputTextDelta delta item_id =>
    unfold Cumulative.handle
    dsimp only
    split_ifs <;> simp
  | ReasoningContentDelta delta item_id =>
    unfold Cumulative.handle
    dsimp only
    split_ifs <;> simp

theorem poll_inner_left {mode : AggregateMode} {c : Cumulative}
    {inner : List (Except Text ResponseEvent)} {event : Except Text ResponseEvent}
    {s : AggregatedChatStream}
    (h : AggregatedChatStream.poll_inner mode c inner = (some event, s)) :
    s.left < 3 * inner.length := by
  induction inner generalizing c with
  | nil => cases h
  | cons first inner ih =>
    rcases first with e | first
    · obtain ⟨-, rfl⟩ := Prod.mk.inj h
      simp [AggregatedChatStream.left]
    · have hlength := handle_length mode c first
      rw [AggregatedChatStream.poll_inner] at h
      rw [List.length_cons]
      rcases hhandle : c.handle mode first with ⟨c', _ | ⟨event', pending⟩⟩
      · rw [hhandle] at h
        have hleft := ih h
        omega
      · rw [hhandle] at h hlength
        obtain ⟨-, rfl⟩ := Prod.mk.inj h
        simp only [List.length_cons, AggregatedChatStream.left] at hlength ⊢
        omega

theorem poll_next_left {s s' : AggregatedChatStream} {event : Except Text ResponseEvent}
    (h : s.poll_next = (some event, s')) : s'.left < s.left := by
  unfold AggregatedChatStream.poll_next at h
  rcases hpending : s.pending with _ | ⟨first, pending⟩
  · rw [hpending] at h
    have hleft := poll_inner_left h
    have hs : s.left = 3 * s.inner.length := by simp [AggregatedChatStream.left, hpending]
    rwa [hs]
  · rw [hpending] at h
    obtain ⟨-, rfl⟩ := Prod.mk.inj h
    simp [AggregatedChatStream.left, hpending]

/-- The events of the stream, polled until there is none. -/
def AggregatedChatStream.collect (s : AggregatedChatStream) : List (Except Text ResponseEvent) :=
  match _h : s.poll_next with
  | (none, _) => []
  | (some event, s') => event :: collect s'
termination_by s.left
decreasing_by exact poll_next_left _h

/-! ## What is forwarded -/

/-- The events that are sent for those of the inner stream. -/
def forward (mode : AggregateMode) : Cumulative → List (Except Text ResponseEvent) →
    List (Except Text ResponseEvent)
  | _, [] => []
  | c, .error e :: inner => .error e :: forward mode c inner
  | c, .ok event :: inner =>
    (c.handle mode event).2.map .ok ++ forward mode (c.handle mode event).1 inner

theorem collect_none {s s' : AggregatedChatStream} (h : s.poll_next = (none, s')) :
    s.collect = [] := by
  rw [AggregatedChatStream.collect]
  split
  · rfl
  · next hsome =>
    rw [h] at hsome
    cases hsome

theorem collect_some {s s' : AggregatedChatStream} {event : Except Text ResponseEvent}
    (h : s.poll_next = (some event, s')) : s.collect = event :: s'.collect := by
  rw [AggregatedChatStream.collect]
  split
  · next hnone =>
    rw [h] at hnone
    cases hnone
  · next hsome =>
    rw [h] at hsome
    obtain ⟨hevent, rfl⟩ := Prod.mk.inj hsome
    obtain rfl := Option.some.inj hevent
    rfl

/-- What is pending comes first. -/
theorem collect_pending (inner : List (Except Text ResponseEvent)) (c : Cumulative)
    (pending : List ResponseEvent) (mode : AggregateMode) :
    AggregatedChatStream.collect ⟨inner, c, pending, mode⟩ =
      pending.map .ok ++ AggregatedChatStream.collect ⟨inner, c, [], mode⟩ := by
  induction pending with
  | nil => rfl
  | cons event pending ih =>
    rw [collect_some rfl, ih]
    rfl

theorem collect_congr {s s' : AggregatedChatStream} (h : s.poll_next = s'.poll_next) :
    s.collect = s'.collect := by
  rcases hpoll : s'.poll_next with ⟨_ | event, next⟩
  · rw [collect_none hpoll, collect_none (h.trans hpoll)]
  · rw [collect_some hpoll, collect_some (h.trans hpoll)]

theorem collect_eq_forward (inner : List (Except Text ResponseEvent)) (c : Cumulative)
    (mode : AggregateMode) :
    AggregatedChatStream.collect ⟨inner, c, [], mode⟩ = forward mode c inner := by
  induction inner generalizing c with
  | nil => exact collect_none rfl
  | cons first inner ih =>
    rcases first with e | event
    · rw [collect_some rfl, ih]
      rfl
    · rw [forward]
      rcases hhandle : c.handle mode event with ⟨c', _ | ⟨event', pending⟩⟩
      · have hpoll : AggregatedChatStream.poll_next ⟨.ok event :: inner, c, [], mode⟩ =
            AggregatedChatStream.poll_next ⟨inner, c', [], mode⟩ := by
          simp only [AggregatedChatStream.poll_next, AggregatedChatStream.poll_inner, hhandle]
        rw [collect_congr hpoll, ih]
        rfl
      · have hpoll : AggregatedChatStream.poll_next ⟨.ok event :: inner, c, [], mode⟩ =
            (some (.ok event'), ⟨inner, c', pending, mode⟩) := by
          simp only [AggregatedChatStream.poll_next, AggregatedChatStream.poll_inner, hhandle]
        rw [collect_some hpoll, collect_pending, ih]
        rfl

/-! ## A turn -/

/-- An event before the items of a turn. -/
def is_piece : Except Text ResponseEvent → Bool
  | .ok (.Created _ _) => true
  | .ok (.OutputTextDelta _ _) => true
  | .ok (.ReasoningContentDelta _ _) => true
  | _ => false

def text_delta : Except Text ResponseEvent → Text
  | .ok (.OutputTextDelta delta _) => delta
  | _ => []

def reasoning_delta : Except Text ResponseEvent → Text
  | .ok (.ReasoningContentDelta delta _) => delta
  | _ => []

/-- The assistant text of a turn. -/
def turn_text (events : List (Except Text ResponseEvent)) : Text := events.flatMap text_delta

/-- The reasoning of a turn. -/
def turn_reasoning (events : List (Except Text ResponseEvent)) : Text :=
  events.flatMap reasoning_delta

/-- The item of an event. -/
def done_item : Except Text ResponseEvent → Option (ResponseItem (List Text))
  | .ok (.OutputItemDone item) => some item
  | _ => none

def assistant_content : ResponseItem (List Text) → Option (List ContentItem)
  | .Message _ role content _ _ => if role = "assistant".toList then some content else none
  | _ => none

def reasoning_content : ResponseItem (List Text) → Option (Option (List Text))
  | .Reasoning _ _ content _ => some content
  | _ => none

def messages (events : List (Except Text ResponseEvent)) : List (List ContentItem) :=
  (events.filterMap done_item).filterMap assistant_content

def reasonings (events : List (Except Text ResponseEvent)) : List (Option (List Text)) :=
  (events.filterMap done_item).filterMap reasoning_content

/-- The items that are neither an assistant message nor reasoning. -/
def other_items (events : List (Except Text ResponseEvent)) : List (ResponseItem (List Text)) :=
  (events.filterMap done_item).filter fun item =>
    (assistant_content item).isNone && (reasoning_content item).isNone

def is_completed : Except Text ResponseEvent → Bool
  | .ok (.Completed _) => true
  | _ => false

def is_error : Except Text ResponseEvent → Bool
  | .error _ => true
  | .ok _ => false

/-- The adapted stream has the text of the turn in one message and its reasoning in one item at
most, every other item as it was sent, and `Completed` at its end only. -/
structure AggregatesOnce (events out : List (Except Text ResponseEvent)) : Prop where
  message_once : messages out =
    if turn_text events = [] then [] else [[.OutputText (turn_text events)]]
  reasoning_once : reasonings out = [] ∨ reasonings out = [some [turn_reasoning events]]
  others : other_items out = other_items events
  completed_last : ∃ init response_id, out = init ++ [.ok (.Completed response_id)] ∧
    ∀ event ∈ init, is_completed event = false

/-- The turn ends without an assistant message and, where reasoning is aggregated, without a
reasoning item. -/
def Unfinished (mode : AggregateMode) (events : List (Except Text ResponseEvent)) : Prop :=
  messages events = [] ∧ (mode = .AggregatedOnly → reasonings events = [])

/-- What may stand between the pieces of a turn and `Completed`: the text of the pieces once at
most, and their reasoning. -/
structure Finals (text reasoning : Text) (items : List (Except Text ResponseEvent)) : Prop where
  done : ∀ event ∈ items, (done_item event).isSome = true
  message : messages items = [] ∨ text ≠ [] ∧ messages items = [[.OutputText text]]
  reasoning : reasonings items = [] ∨ reasoning ≠ [] ∧ reasonings items = [some [reasoning]]

/-- The events of a turn: pieces, items, and `Completed`. -/
def IsTurn (events : List (Except Text ResponseEvent)) : Prop :=
  ∃ pieces items response_id, events = pieces ++ items ++ [.ok (.Completed response_id)] ∧
    (∀ event ∈ pieces, is_piece event = true) ∧
    Finals (turn_text pieces) (turn_reasoning pieces) items

/-! ## What the decoder sends is a turn -/

namespace ChatState

/-- Only pieces are sent yet, and the state has gathered their text and reasoning. -/
structure InPieces (s : ChatState) : Prop where
  pieces : ∀ event ∈ s.tx_event, is_piece event = true
  text : s.assistant_text = turn_text s.tx_event
  reasoning : s.reasoning_text = turn_reasoning s.tx_event

theorem InPieces.send {s : ChatState} (h : InPieces s) (event : Except Text ResponseEvent)
    (hpiece : is_piece event = true) {s' : ChatState} (htx : s'.tx_event = s.tx_event ++ [event])
    (htext : s'.assistant_text = s.assistant_text ++ text_delta event)
    (hreasoning : s'.reasoning_text = s.reasoning_text ++ reasoning_delta event) : InPieces s' where
  pieces := by
    rw [htx]
    exact List.forall_mem_append.mpr ⟨h.pieces, by simpa using hpiece⟩
  text := by
    rw [htx, htext, h.text]
    simp [turn_text]
  reasoning := by
    rw [htx, hreasoning, h.reasoning]
    simp [turn_reasoning]

/-- Nothing is sent, and no text is gathered. -/
theorem InPieces.same {s s' : ChatState} (h : InPieces s) (htx : s'.tx_event = s.tx_event)
    (htext : s'.assistant_text = s.assistant_text)
    (hreasoning : s'.reasoning_text = s.reasoning_text) : InPieces s' where
  pieces := htx ▸ h.pieces
  text := by rw [htx, htext, h.text]
  reasoning := by rw [htx, hreasoning, h.reasoning]

theorem InPieces.read_response {s : ChatState} (h : InPieces s) (chunk : Json) :
    InPieces (s.read_response chunk) := by
  unfold ChatState.read_response
  extract_lets s₁ s₂
  have h₁ : InPieces s₁ := by
    unfold s₁
    split
    · exact h.same rfl rfl rfl
    · exact h
  have h₂ : InPieces s₂ := by
    unfold s₂
    split
    · exact h₁.same rfl rfl rfl
    · exact h₁
  split
  · exact h₂.send (.ok (.Created s₂.current_response_id s₂.current_response_model)) rfl rfl
      (List.append_nil _).symm (List.append_nil _).symm
  · exact h₂

theorem InPieces.read_item_id {s : ChatState} (h : InPieces s) (value : Json) :
    InPieces (s.read_item_id value) := by
  unfold ChatState.read_item_id
  split
  · exact h.same rfl rfl rfl
  · exact h

theorem InPieces.push_text {s : ChatState} (h : InPieces s) (content : Text) :
    InPieces (s.push_text content) := by
  unfold ChatState.push_text
  split
  · exact h
  · exact h.send (.ok (.OutputTextDelta content s.current_item_id)) rfl rfl rfl
      (List.append_nil _).symm

theorem InPieces.push_reasoning {s : ChatState} (h : InPieces s) (reasoning : Text) :
    InPieces (s.push_reasoning reasoning) := by
  unfold ChatState.push_reasoning
  split
  · exact h
  · exact h.send (.ok (.ReasoningContentDelta reasoning s.current_item_id)) rfl rfl
      (List.append_nil _).symm rfl

theorem InPieces.read_choice {s : ChatState} (h : InPieces s) (choice : Json) :
    InPieces (s.read_choice choice) := by
  unfold ChatState.read_choice
  extract_lets s₁ s₂ s₃ s₄
  have h₁ : InPieces s₁ := h.read_item_id choice
  have h₂ : InPieces s₂ := by
    unfold s₂ read_content
    split
    · exact h₁.push_text _
    · exact h₁
  have h₃ : InPieces s₃ := by
    unfold s₃ read_delta_reasoning
    split
    · exact h₂.push_reasoning _
    · exact h₂
  have h₄ : InPieces s₄ := by
    unfold s₄ read_message_reasoning
    split
    · exact h₃.push_reasoning _
    · exact h₃
  unfold read_tool_calls
  split
  · exact h₄.same rfl rfl rfl
  · exact h₄

def text_events (s : ChatState) : List (Except Text ResponseEvent) :=
  if s.assistant_text = [] then []
  else [.ok (.OutputItemDone
    (.Message s.current_item_id "assistant".toList [.OutputText s.assistant_text] none none))]

def reasoning_events (s : ChatState) : List (Except Text ResponseEvent) :=
  if s.reasoning_text = [] then []
  else [.ok (.OutputItemDone (.Reasoning s.current_item_id [] (some [s.reasoning_text]) none))]

theorem flush_reasoning_tx (s : ChatState) :
    s.flush_reasoning.tx_event = s.tx_event ++ s.reasoning_events := by
  unfold flush_reasoning reasoning_events
  split_ifs
  · rw [List.append_nil]
  · rfl

theorem flush_text_tx (s : ChatState) :
    s.flush_text.flush_reasoning.tx_event =
      s.tx_event ++ (s.text_events ++ s.reasoning_events) := by
  rw [flush_reasoning_tx, ← List.append_assoc]
  unfold flush_text text_events
  split_ifs
  · rw [List.append_nil]
  · rfl

theorem InPieces.turn {s : ChatState} (h : InPieces s)
    {events items : List (Except Text ResponseEvent)} {response_id : Text}
    (htx : events = s.tx_event ++ items ++ [.ok (.Completed response_id)])
    (hitems : Finals s.assistant_text s.reasoning_text items) : IsTurn events :=
  ⟨s.tx_event, items, response_id, htx, h.pieces, h.text ▸ h.reasoning ▸ hitems⟩

/-- The text and the reasoning, each as an item unless it is empty. -/
theorem flushed_finals (s : ChatState) :
    Finals s.assistant_text s.reasoning_text (s.text_events ++ s.reasoning_events) := by
  unfold text_events reasoning_events
  split_ifs with htext hreasoning hreasoning
  · exact ⟨by simp, .inl rfl, .inl rfl⟩
  · exact ⟨by simp [done_item], .inl rfl, .inr ⟨hreasoning, rfl⟩⟩
  · exact ⟨by simp [done_item], .inr ⟨htext, rfl⟩, .inl rfl⟩
  · exact ⟨by simp [done_item], .inr ⟨htext, rfl⟩, .inr ⟨hreasoning, rfl⟩⟩

theorem called_finals (s : ChatState) (id : Option Text) (name arguments call_id : Text) :
    Finals s.assistant_text s.reasoning_text
      (s.reasoning_events ++
        [Except.ok
          (ResponseEvent.OutputItemDone (.FunctionCall id name none arguments call_id))]) := by
  unfold reasoning_events
  split_ifs with hreasoning
  · exact ⟨by simp [done_item], .inl rfl, .inl rfl⟩
  · exact ⟨by simp [done_item], .inl rfl, .inr ⟨hreasoning, rfl⟩⟩

theorem flushed_turn {s : ChatState} (h : InPieces s) (response_id : Text) :
    IsTurn (s.flush_text.flush_reasoning.complete response_id).tx_event := by
  have htx : (s.flush_text.flush_reasoning.complete response_id).tx_event =
      s.tx_event ++ (s.text_events ++ s.reasoning_events) ++
        [Except.ok (ResponseEvent.Completed response_id)] := by
    rw [← flush_text_tx]
    rfl
  exact h.turn htx (flushed_finals s)

theorem finish_turn {s : ChatState} (h : InPieces s) (finish_reason : Text) :
    IsTurn (s.finish finish_reason).tx_event := by
  unfold finish
  dsimp only
  split_ifs
  · have htx : (s.flush_reasoning.send_call.complete []).tx_event =
        s.tx_event ++ (s.reasoning_events ++
          [Except.ok (ResponseEvent.OutputItemDone (.FunctionCall
            s.flush_reasoning.current_item_id (s.flush_reasoning.fn_call_state.name.getD []) none
            s.flush_reasoning.fn_call_state.arguments
            (s.flush_reasoning.fn_call_state.call_id.getD [])))]) ++
          [Except.ok (ResponseEvent.Completed [])] := by
      rw [← List.append_assoc, ← flush_reasoning_tx]
      rfl
    exact h.turn htx (called_finals s _ _ _ _)
  · exact flushed_turn h []
  · have htx : (s.complete []).tx_event =
        s.tx_event ++ [] ++ [Except.ok (ResponseEvent.Completed [])] := by
      rw [List.append_nil]
      rfl
    exact h.turn htx ⟨by simp, .inl rfl, .inl rfl⟩

theorem step_turn {s : ChatState} (h : InPieces s) (chunk : Json) :
    ((s.step chunk).2 = false ∧ InPieces (s.step chunk).1) ∨
      (s.step chunk).2 = true ∧ IsTurn (s.step chunk).1.tx_event := by
  have hread := (h.read_response chunk).read_item_id chunk
  unfold step
  dsimp only
  rcases (chunk.get "choices".toList).bind (Json.get_index 0) with _ | choice
  · exact .inl ⟨rfl, hread⟩
  · have hchoice := hread.read_choice choice
    dsimp only
    rcases (choice.get "finish_reason".toList).bind Json.as_string with _ | reason
    · exact .inl ⟨rfl, hchoice⟩
    · exact .inr ⟨rfl, finish_turn hchoice reason⟩

end ChatState

theorem process_turn (from_str : Text → Option Json) {s s' : ChatState} (h : s.InPieces)
    {sse : List StreamEvent} (hs : process from_str s sse = some s') :
    IsTurn s'.tx_event ∨ ∃ event ∈ s'.tx_event, is_error event = true := by
  induction sse generalizing s with
  | nil =>
    obtain rfl := Option.some.inj hs
    exact .inl (ChatState.flushed_turn h _)
  | cons event sse ih =>
    rcases event with data | e | _
    · rw [process] at hs
      split_ifs at hs with hblank hdone
      · exact ih h hs
      · obtain rfl := Option.some.inj hs
        exact .inl (ChatState.flushed_turn h _)
      · rcases hchunk : from_str (Text.trim data) with _ | chunk
        · rw [hchunk] at hs
          obtain ⟨text, -, hs⟩ := Option.bind_eq_some_iff.mp hs
          exact ih h hs
        · rw [hchunk] at hs
          have hstep := ChatState.step_turn h chunk
          dsimp only at hs
          generalize s.step chunk = next at hs hstep
          obtain ⟨next, returned⟩ := next
          rcases hstep with ⟨rfl, hnext⟩ | ⟨rfl, hturn⟩
          · exact ih hnext hs
          · obtain rfl := Option.some.inj hs
            exact .inl hturn
    · obtain rfl := Option.some.inj hs
      exact .inr ⟨_, List.mem_append_right _ List.mem_cons_self, rfl⟩
    · obtain rfl := Option.some.inj hs
      exact .inr ⟨_, List.mem_append_right _ List.mem_cons_self, rfl⟩

/-! ## The adapter on a turn -/

/-- What is gathered after events without an error. -/
def gather (mode : AggregateMode) (c : Cumulative) (events : List (Except Text ResponseEvent)) :
    Cumulative :=
  events.foldl (fun c event =>
    match event with
    | .ok event => (c.handle mode event).1
    | .error _ => c) c

theorem forward_append (mode : AggregateMode) (c : Cumulative)
    (a b : List (Except Text ResponseEvent)) :
    forward mode c (a ++ b) = forward mode c a ++ forward mode (gather mode c a) b := by
  induction a generalizing c with
  | nil => rfl
  | cons event a ih =>
    rcases event with e | event
    · rw [List.cons_append, forward, forward, ih]
      rfl
    · rw [List.cons_append, forward, forward, ih, List.append_assoc]
      rfl

theorem handle_piece (mode : AggregateMode) (c : Cumulative) {event : ResponseEvent}
    (h : is_piece (.ok event) = true) :
    (c.handle mode event).1.cumulative = c.cumulative ++ text_delta (.ok event) ∧
      (c.handle mode event).1.cumulative_reasoning =
        c.cumulative_reasoning ++ reasoning_delta (.ok event) ∧
      ∀ sent ∈ (c.handle mode event).2, is_piece (.ok sent) = true := by
  cases event with
  | OutputItemDone item => cases h
  | Completed response_id => cases h
  | Created response_id response_model =>
    exact ⟨(List.append_nil _).symm, (List.append_nil _).symm,
      by simp [Cumulative.handle, is_piece]⟩
  | OutputTextDelta delta item_id =>
    refine ⟨rfl, (List.append_nil _).symm, fun sent hsent => ?_⟩
    unfold Cumulative.handle at hsent
    dsimp only at hsent
    split_ifs at hsent
    · obtain rfl := List.mem_singleton.mp hsent
      rfl
    · cases hsent
  | ReasoningContentDelta delta item_id =>
    refine ⟨(List.append_nil _).symm, rfl, fun sent hsent => ?_⟩
    unfold Cumulative.handle at hsent
    dsimp only at hsent
    split_ifs at hsent
    · obtain rfl := List.mem_singleton.mp hsent
      rfl
    · cases hsent

/-- Pieces are gathered, and nothing but pieces is sent for them. -/
theorem forward_pieces (mode : AggregateMode) (c : Cumulative)
    {pieces : List (Except Text ResponseEvent)} (h : ∀ event ∈ pieces, is_piece event = true) :
    (gather mode c pieces).cumulative = c.cumulative ++ turn_text pieces ∧
      (gather mode c pieces).cumulative_reasoning =
        c.cumulative_reasoning ++ turn_reasoning pieces ∧
      ∀ event ∈ forward mode c pieces, is_piece event = true := by
  induction pieces generalizing c with
  | nil => simp [gather, turn_text, turn_reasoning, forward]
  | cons event pieces ih =>
    obtain ⟨hpiece, hrest⟩ := List.forall_mem_cons.mp h
    rcases event with e | event
    · cases hpiece
    · obtain ⟨htext, hreasoning, hsent⟩ := handle_piece mode c hpiece
      obtain ⟨htexts, hreasonings, hall⟩ := ih (c.handle mode event).1 hrest
      refine ⟨?_, ?_, ?_⟩
      · rw [htext, List.append_assoc] at htexts
        exact htexts
      · rw [hreasoning, List.append_assoc] at hreasonings
        exact hreasonings
      · rw [forward]
        refine List.forall_mem_append.mpr ⟨fun sent hmem => ?_, hall⟩
        obtain ⟨event', hevent, rfl⟩ := List.mem_map.mp hmem
        exact hsent event' hevent

theorem take_item_gathers (c : Cumulative) {item : ResponseItem (List Text)}
    (h : c.cumulative ≠ [] ∨ assistant_content item = none) :
    (c.take_item item).cumulative = c.cumulative ∧
      (c.take_item item).cumulative_reasoning = c.cumulative_reasoning := by
  cases item with
  | Message id role content end_turn phase =>
    have hskipped : ¬(role = "assistant".toList ∧ c.cumulative = []) := by
      rintro ⟨hrole, hempty⟩
      rcases h with h | h
      · exact h hempty
      · unfold assistant_content at h
        dsimp only at h
        rw [if_pos hrole] at h
        cases h
    unfold Cumulative.take_item
    dsimp only
    rw [if_neg hskipped]
    exact ⟨rfl, rfl⟩
  | _ => exact ⟨rfl, rfl⟩

/-- Items are sent as they are, and gather nothing once there is text. -/
theorem forward_items (mode : AggregateMode) (c : Cumulative)
    {items : List (Except Text ResponseEvent)}
    (hdone : ∀ event ∈ items, (done_item event).isSome = true)
    (htext : c.cumulative ≠ [] ∨ messages items = []) :
    (gather mode c items).cumulative = c.cumulative ∧
      (gather mode c items).cumulative_reasoning = c.cumulative_reasoning ∧
      forward mode c items = items := by
  induction items generalizing c with
  | nil => exact ⟨rfl, rfl, rfl⟩
  | cons event items ih =>
    obtain ⟨hitem, hrest⟩ := List.forall_mem_cons.mp hdone
    have hcases : ∃ item, event = .ok (.OutputItemDone item) := by
      obtain ⟨item, hitem⟩ := Option.isSome_iff_exists.mp hitem
      unfold done_item at hitem
      split at hitem
      · exact ⟨_, rfl⟩
      · cases hitem
    obtain ⟨item, rfl⟩ := hcases
    have hmessages : messages (.ok (.OutputItemDone item) :: items) =
        (assistant_content item).toList ++ messages items := by
      unfold messages
      have hitem : done_item (.ok (.OutputItemDone item)) = some item := rfl
      rw [List.filterMap_cons_some hitem]
      rcases hcontent : assistant_content item with _ | content
      · rw [List.filterMap_cons_none hcontent]
        rfl
      · rw [List.filterMap_cons_some hcontent]
        rfl
    rw [hmessages, List.append_eq_nil_iff, Option.toList_eq_nil_iff] at htext
    obtain ⟨hcumulative, hreasoning⟩ := take_item_gathers c (htext.imp_right And.left)
    have hrest' := ih (c.take_item item) hrest (by
      rw [hcumulative]
      exact htext.imp_right And.right)
    rw [hcumulative, hreasoning] at hrest'
    obtain ⟨hgather, hgather', hforward⟩ := hrest'
    refine ⟨hgather, hgather', ?_⟩
    rw [forward]
    exact congrArg (_ :: ·) hforward

/-- The item of the reasoning that was gathered. -/
def reasoning_item (mode : AggregateMode) (id : Option Text) (text : Text) :
    List (Except Text ResponseEvent) :=
  if text ≠ [] ∧ mode = .AggregatedOnly then
    [.ok (.OutputItemDone (.Reasoning id [] (some [text]) none))]
  else []

/-- The item of the text that was gathered. -/
def message_item (id : Option Text) (text : Text) : List (Except Text ResponseEvent) :=
  if text ≠ [] then
    [.ok (.OutputItemDone (.Message id "assistant".toList [.OutputText text] none none))]
  else []

/-- What the adapter makes of a turn: pieces, the items of the turn, what was gathered, and
`Completed`. -/
theorem collect_turn (mode : AggregateMode) {pieces items : List (Except Text ResponseEvent)}
    (response_id : Text) (hpieces : ∀ event ∈ pieces, is_piece event = true)
    (hfinals : Finals (turn_text pieces) (turn_reasoning pieces) items) :
    ∃ sent id, (∀ event ∈ sent, is_piece event = true) ∧
      (AggregatedChatStream.new
          (pieces ++ items ++ [Except.ok (ResponseEvent.Completed response_id)]) mode).collect =
        sent ++ items ++ (reasoning_item mode id (turn_reasoning pieces) ++
          message_item id (turn_text pieces) ++
            [Except.ok (ResponseEvent.Completed response_id)]) := by
  obtain ⟨htext, hreasoning, hsent⟩ := forward_pieces mode ⟨[], [], none⟩ hpieces
  rw [List.nil_append] at htext hreasoning
  have hitems := forward_items mode (gather mode ⟨[], [], none⟩ pieces) hfinals.done (by
    rw [htext]
    exact hfinals.message.elim .inr fun h => .inl h.1)
  obtain ⟨htext', hreasoning', hforward⟩ := hitems
  rw [htext] at htext'
  rw [hreasoning] at hreasoning'
  refine ⟨_, (gather mode (gather mode ⟨[], [], none⟩ pieces) items).cumulative_item_id, hsent, ?_⟩
  unfold AggregatedChatStream.new
  rw [collect_eq_forward, List.append_assoc, forward_append, forward_append, hforward,
    List.append_assoc]
  congr 2
  simp only [forward, Cumulative.handle, Cumulative.aggregated_reasoning,
    Cumulative.aggregated_message, htext', hreasoning', List.append_nil, List.map_append]
  unfold reasoning_item message_item
  congr 2
  · split_ifs <;> rfl
  · split_ifs <;> rfl

/-! ## When the adapter sends everything once -/

theorem done_item_of_piece {event : Except Text ResponseEvent} (h : is_piece event = true) :
    done_item event = none ∧ is_completed event = false := by
  unfold is_piece at h
  split at h
  · exact ⟨rfl, rfl⟩
  · exact ⟨rfl, rfl⟩
  · exact ⟨rfl, rfl⟩
  · cases h

theorem pieces_have_no_item {pieces : List (Except Text ResponseEvent)}
    (h : ∀ event ∈ pieces, is_piece event = true) : pieces.filterMap done_item = [] :=
  List.filterMap_eq_nil_iff.mpr fun event hevent => (done_item_of_piece (h event hevent)).1

/-- Items and `Completed` have no text of their own. -/
theorem delta_of_done {event : Except Text ResponseEvent} (h : (done_item event).isSome = true) :
    text_delta event = [] ∧ reasoning_delta event = [] ∧ is_completed event = false := by
  unfold done_item at h
  split at h
  · exact ⟨rfl, rfl, rfl⟩
  · cases h

theorem turn_of_items (pieces : List (Except Text ResponseEvent))
    {items : List (Except Text ResponseEvent)} (response_id : Text)
    (hdone : ∀ event ∈ items, (done_item event).isSome = true) :
    turn_text (pieces ++ items ++ [Except.ok (ResponseEvent.Completed response_id)]) =
        turn_text pieces ∧
      turn_reasoning (pieces ++ items ++ [Except.ok (ResponseEvent.Completed response_id)]) =
        turn_reasoning pieces := by
  have htext : items.flatMap text_delta = [] :=
    List.flatMap_eq_nil_iff.mpr fun event hevent => (delta_of_done (hdone event hevent)).1
  have hreasoning : items.flatMap reasoning_delta = [] :=
    List.flatMap_eq_nil_iff.mpr fun event hevent => (delta_of_done (hdone event hevent)).2.1
  unfold turn_text turn_reasoning
  simp [htext, hreasoning, text_delta, reasoning_delta]

@[simp]
theorem messages_append (a b : List (Except Text ResponseEvent)) :
    messages (a ++ b) = messages a ++ messages b := by
  simp [messages]

@[simp]
theorem reasonings_append (a b : List (Except Text ResponseEvent)) :
    reasonings (a ++ b) = reasonings a ++ reasonings b := by
  simp [reasonings]

@[simp]
theorem other_items_append (a b : List (Except Text ResponseEvent)) :
    other_items (a ++ b) = other_items a ++ other_items b := by
  simp [other_items]

theorem pieces_have_none {pieces : List (Except Text ResponseEvent)}
    (h : ∀ event ∈ pieces, is_piece event = true) :
    messages pieces = [] ∧ reasonings pieces = [] ∧ other_items pieces = [] := by
  unfold messages reasonings other_items
  rw [pieces_have_no_item h]
  exact ⟨rfl, rfl, rfl⟩

theorem completed_has_none (response_id : Text) :
    messages [.ok (.Completed response_id)] = [] ∧ reasonings [.ok (.Completed response_id)] = [] ∧
      other_items [.ok (.Completed response_id)] = [] :=
  ⟨rfl, rfl, rfl⟩

theorem items_of_reasoning (mode : AggregateMode) (id : Option Text) (text : Text) :
    messages (reasoning_item mode id text) = [] ∧
      (reasonings (reasoning_item mode id text) =
        if text ≠ [] ∧ mode = .AggregatedOnly then [some [text]] else []) ∧
      other_items (reasoning_item mode id text) = [] ∧
      ∀ event ∈ reasoning_item mode id text, is_completed event = false := by
  unfold reasoning_item
  split_ifs
  · exact ⟨rfl, rfl, rfl, by simp [is_completed]⟩
  · exact ⟨rfl, rfl, rfl, by simp⟩

theorem items_of_message (id : Option Text) (text : Text) :
    (messages (message_item id text) = if text ≠ [] then [[.OutputText text]] else []) ∧
      reasonings (message_item id text) = [] ∧ other_items (message_item id text) = [] ∧
      ∀ event ∈ message_item id text, is_completed event = false := by
  unfold message_item
  split_ifs
  · exact ⟨rfl, rfl, rfl, by simp [is_completed]⟩
  · exact ⟨rfl, rfl, rfl, by simp⟩

/-- The items of a turn by their kind. -/
theorem kinds_of_turn {pieces : List (Except Text ResponseEvent)}
    (hpieces : ∀ event ∈ pieces, is_piece event = true) (items : List (Except Text ResponseEvent))
    (response_id : Text) :
    let events := pieces ++ items ++ [Except.ok (ResponseEvent.Completed response_id)]
    messages events = messages items ∧ reasonings events = reasonings items ∧
      other_items events = other_items items := by
  obtain ⟨hmessages, hreasonings, hothers⟩ := pieces_have_none hpieces
  obtain ⟨hmessages', hreasonings', hothers'⟩ := completed_has_none response_id
  simp [hmessages, hreasonings, hothers, hmessages', hreasonings', hothers']

/-- The items of what the adapter sends by their kind. -/
theorem kinds_of_output {sent : List (Except Text ResponseEvent)}
    (hsent : ∀ event ∈ sent, is_piece event = true) (items : List (Except Text ResponseEvent))
    (mode : AggregateMode) (id : Option Text) (reasoning text response_id : Text) :
    let out := sent ++ items ++ (reasoning_item mode id reasoning ++ message_item id text ++
      [Except.ok (ResponseEvent.Completed response_id)])
    (messages out = messages items ++ if text ≠ [] then [[.OutputText text]] else []) ∧
      (reasonings out = reasonings items ++
        if reasoning ≠ [] ∧ mode = .AggregatedOnly then [some [reasoning]] else []) ∧
      other_items out = other_items items := by
  obtain ⟨hs₁, hs₂, hs₃⟩ := pieces_have_none hsent
  obtain ⟨hr₁, hr₂, hr₃, -⟩ := items_of_reasoning mode id reasoning
  obtain ⟨hm₁, hm₂, hm₃, -⟩ := items_of_message id text
  obtain ⟨hc₁, hc₂, hc₃⟩ := completed_has_none response_id
  simp only [messages_append, reasonings_append, other_items_append, hs₁, hs₂, hs₃, hr₁, hr₂, hr₃,
    hm₁, hm₂, hm₃, hc₁, hc₂, hc₃, List.nil_append, List.append_nil, and_self]

/-- For every turn that the decoder sends, the adapter sends its text, its reasoning and all other
items once exactly when the turn has no final message, and no final reasoning that is aggregated. -/
theorem aggregated_once_iff_unfinished (from_str : Text → Option Json) {sse : List StreamEvent}
    {events : List (Except Text ResponseEvent)} (h : process_chat_sse from_str sse = some events)
    (hok : ∀ event ∈ events, is_error event = false) (mode : AggregateMode) :
    AggregatesOnce events (AggregatedChatStream.new events mode).collect ↔
      Unfinished mode events := by
  obtain ⟨s', hs, rfl⟩ := Option.map_eq_some_iff.mp h
  have hinit : ChatState.InPieces .init :=
    ⟨fun event hevent => absurd hevent List.not_mem_nil, rfl, rfl⟩
  rcases process_turn from_str hinit hs with hturn | ⟨event, hevent, herror⟩
  swap
  · rw [hok event hevent] at herror
    cases herror
  obtain ⟨pieces, items, response_id, heq, hpieces, hfinals⟩ := hturn
  rw [heq]
  obtain ⟨sent, id, hsent, hcollect⟩ := collect_turn mode response_id hpieces hfinals
  obtain ⟨htext, hreasoning⟩ := turn_of_items pieces response_id hfinals.done
  obtain ⟨hmessages, hreasonings, hothers⟩ := kinds_of_turn hpieces items response_id
  obtain ⟨hmessages', hreasonings', hothers'⟩ := kinds_of_output hsent items mode id
    (turn_reasoning pieces) (turn_text pieces) response_id
  rw [hcollect]
  constructor
  · intro honce
    have hmessage := honce.message_once
    have hreasons := honce.reasoning_once
    rw [htext, hmessages'] at hmessage
    rw [hreasoning, hreasonings'] at hreasons
    constructor
    · rcases hfinals.message with hnone | ⟨hne, hone⟩
      · exact hmessages.trans hnone
      · simp [hne, hone] at hmessage
    · intro hmode
      rcases hfinals.reasoning with hnone | ⟨hne, hone⟩
      · exact hreasonings.trans hnone
      · simp [hne, hone, hmode] at hreasons
  · rintro ⟨hmessage, hreasons⟩
    rw [hmessages] at hmessage
    rw [hreasonings] at hreasons
    refine ⟨?_, ?_, ?_, ?_⟩
    · rw [htext, hmessages', hmessage]
      split_ifs with hne <;> simp_all
    · rw [hreasoning, hreasonings']
      split_ifs with hboth
      · rw [hreasons hboth.2]
        exact .inr rfl
      · rw [List.append_nil]
        exact hfinals.reasoning.imp_right And.right
    · rw [hothers, hothers']
    · refine ⟨_, response_id, by rw [← List.append_assoc], ?_⟩
      have hitems : ∀ event ∈ items, is_completed event = false :=
        fun event hevent => (delta_of_done (hfinals.done event hevent)).2.2
      exact List.forall_mem_append.mpr ⟨List.forall_mem_append.mpr
        ⟨fun event hevent => (done_item_of_piece (hsent event hevent)).2, hitems⟩,
        List.forall_mem_append.mpr ⟨(items_of_reasoning mode id _).2.2.2,
          (items_of_message id _).2.2.2⟩⟩

/-! A turn that is cut off at the length limit, and one that ends regularly. -/

/-- The chunk of a short answer. -/
def hello (finish_reason : Text) : Json :=
  Delta.to_json ⟨none, none, none, some "Hello.".toList, none, [], false⟩ (some finish_reason)

def hello_data (finish_reason : String) : Text :=
  in_braces ("\"object\":\"chat.completion.chunk\",\"choices\":[\x7b\"index\":0," ++
    "\"delta\":\x7b\"content\":\"Hello.\"\x7d,\"finish_reason\":\"" ++ finish_reason ++
    "\"\x7d]").toList

theorem process_one_chunk {from_str : Text → Option Json} {data : Text} {chunk : Json}
    {s s' : ChatState} (h : Carries from_str data chunk) (hstep : s.step chunk = (s', true)) :
    process from_str s [.data data] = some s' := by
  obtain ⟨hblank, hdone, hchunk⟩ := h
  rw [process, if_neg hblank, if_neg hdone, hchunk]
  dsimp only
  rw [hstep]

/-- The events of the short answer. -/
theorem hello_events (finish_reason : String) (events : List (Except Text ResponseEvent))
    (h : (ChatState.init.step (hello finish_reason.toList)).1.tx_event = events) :
    process_chat_sse (reads (hello_data finish_reason) (hello finish_reason.toList))
      [.data (hello_data finish_reason)] = some events := by
  have hstep : ChatState.init.step (hello finish_reason.toList) =
      ((ChatState.init.step (hello finish_reason.toList)).1, true) := by
    refine Prod.ext rfl ?_
    rw [step_snd]
    rfl
  have hcarries : Carries (reads (hello_data finish_reason) (hello finish_reason.toList))
      (hello_data finish_reason) (hello finish_reason.toList) := reads_in_braces _ _
  unfold process_chat_sse
  rw [process_one_chunk hcarries hstep, Option.map_some, h]

theorem cut_off_turn_is_aggregated :
    ∃ events, process_chat_sse (reads (hello_data "length") (hello "length".toList))
        [.data (hello_data "length")] = some events ∧
      AggregatesOnce events (AggregatedChatStream.new events .AggregatedOnly).collect := by
  have hevents := hello_events "length" _ rfl
  refine ⟨_, hevents, ?_⟩
  exact (aggregated_once_iff_unfinished _ hevents (by decide) .AggregatedOnly).mpr
    ⟨rfl, fun _ => rfl⟩

theorem message_is_sent_twice :
    ∃ events, process_chat_sse (reads (hello_data "stop") (hello "stop".toList))
        [.data (hello_data "stop")] = some events ∧
      ¬AggregatesOnce events (AggregatedChatStream.new events .AggregatedOnly).collect ∧
      ¬AggregatesOnce events (AggregatedChatStream.new events .Streaming).collect := by
  have hevents := hello_events "stop" _ rfl
  refine ⟨_, hevents, fun h => ?_, fun h => ?_⟩
  · have hmessage := h.message_once
    unfold AggregatedChatStream.new at hmessage
    rw [collect_eq_forward] at hmessage
    exact absurd (congrArg List.length hmessage) (by decide)
  · have hmessage := h.message_once
    unfold AggregatedChatStream.new at hmessage
    rw [collect_eq_forward] at hmessage
    exact absurd (congrArg List.length hmessage) (by decide)

end Ecode.chat_completions
