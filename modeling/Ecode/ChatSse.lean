-- The decoder of the Chat Completions stream (core/src/chat_completions.rs): what a chunk
-- adds to the turn, and when the loop panics.
import Ecode.Json
import Ecode.ResponseItems
import Ecode.Truncate

namespace Ecode.chat_completions

open json truncate

/-- The events that `process_chat_sse` sends. The summary of a reasoning item and its content are
lists of texts. -/
inductive ResponseEvent where
  | Created (response_id response_model : Option Text)
  | OutputTextDelta (delta : Text) (item_id : Option Text)
  | ReasoningContentDelta (delta : Text) (item_id : Option Text)
  | OutputItemDone (item : ResponseItem (List Text))
  | Completed (response_id : Text)

structure FunctionCallState where
  name : Option Text
  arguments : Text
  call_id : Option Text
  active : Bool

/-- The variables of the loop, and what it has sent: an error is the text of `CodexErr::Stream`. -/
structure ChatState where
  fn_call_state : FunctionCallState
  assistant_text : Text
  reasoning_text : Text
  current_item_id : Option Text
  current_response_id : Option Text
  current_response_model : Option Text
  created_emitted : Bool
  tx_event : List (Except Text ResponseEvent)

namespace ChatState

def init : ChatState where
  fn_call_state := ⟨none, [], none, false⟩
  assistant_text := []
  reasoning_text := []
  current_item_id := none
  current_response_id := none
  current_response_model := none
  created_emitted := false
  tx_event := []

def send (s : ChatState) (event : Except Text ResponseEvent) : ChatState :=
  { s with tx_event := s.tx_event ++ [event] }

/-! ## The items at the end -/

def flush_text (s : ChatState) : ChatState :=
  if s.assistant_text = [] then s
  else
    { s with assistant_text := [] }.send (.ok (.OutputItemDone
      (.Message s.current_item_id "assistant".toList [.OutputText s.assistant_text] none none)))

def flush_reasoning (s : ChatState) : ChatState :=
  if s.reasoning_text = [] then s
  else
    { s with reasoning_text := [] }.send (.ok (.OutputItemDone
      (.Reasoning s.current_item_id [] (some [s.reasoning_text]) none)))

def send_call (s : ChatState) : ChatState :=
  s.send (.ok (.OutputItemDone (.FunctionCall s.current_item_id (s.fn_call_state.name.getD []) none
    s.fn_call_state.arguments (s.fn_call_state.call_id.getD []))))

def complete (s : ChatState) (response_id : Text) : ChatState :=
  s.send (.ok (.Completed response_id))

def flush_and_complete (s : ChatState) : ChatState :=
  s.flush_text.flush_reasoning.complete (s.current_response_id.getD [])

/-! ## A chunk -/

def read_response (chunk : Json) (s : ChatState) : ChatState :=
  let s :=
    if s.current_response_id.isNone then
      { s with current_response_id := (chunk.get "id".toList).bind Json.as_string }
    else s
  let s :=
    if s.current_response_model.isNone then
      { s with current_response_model := (chunk.get "model".toList).bind Json.as_string }
    else s
  if !s.created_emitted && (s.current_response_id.isSome || s.current_response_model.isSome) then
    { s with created_emitted := true }.send
      (.ok (.Created s.current_response_id s.current_response_model))
  else s

/-- The item id of a chunk or of a choice. -/
def read_item_id (value : Json) (s : ChatState) : ChatState :=
  match (value.get "item_id".toList).bind Json.as_string with
  | some item_id => { s with current_item_id := some item_id }
  | none => s

def push_text (content : Text) (s : ChatState) : ChatState :=
  if content = [] then s
  else
    { s with assistant_text := s.assistant_text ++ content }.send
      (.ok (.OutputTextDelta content s.current_item_id))

def push_reasoning (reasoning : Text) (s : ChatState) : ChatState :=
  if reasoning = [] then s
  else
    { s with reasoning_text := s.reasoning_text ++ reasoning }.send
      (.ok (.ReasoningContentDelta reasoning s.current_item_id))

def read_content (choice : Json) (s : ChatState) : ChatState :=
  match ((choice.get "delta".toList).bind (Json.get "content".toList)).bind Json.as_string with
  | some content => s.push_text content
  | none => s

/-- A string that is not empty. -/
def nonempty_string (value : Json) : Option Text := value.as_string.filter (· ≠ [])

/-- The text of the `reasoning` of a delta: a string, or the `text` or else the `content` of an
object, empty ones passed over. -/
def delta_reasoning (reasoning_val : Json) : Option Text :=
  match nonempty_string reasoning_val with
  | some s => some s
  | none =>
    if reasoning_val.is_object then
      match (reasoning_val.get "text".toList).bind nonempty_string with
      | some s => some s
      | none => (reasoning_val.get "content".toList).bind nonempty_string
    else none

def read_delta_reasoning (choice : Json) (s : ChatState) : ChatState :=
  match ((choice.get "delta".toList).bind (Json.get "reasoning".toList)).bind delta_reasoning with
  | some reasoning => s.push_reasoning reasoning
  | none => s

/-- The text of the `reasoning` of a message: a string, or the `text` or else the `content` of an
object, here also an empty one. -/
def message_reasoning (value : Json) : Option Text :=
  match value.as_string with
  | some s => some s
  | none =>
    if value.is_object then
      ((value.get "text".toList).bind Json.as_string).or
        ((value.get "content".toList).bind Json.as_string)
    else none

def read_message_reasoning (choice : Json) (s : ChatState) : ChatState :=
  match ((choice.get "message".toList).bind (Json.get "reasoning".toList)).bind
      message_reasoning with
  | some reasoning => s.push_reasoning reasoning
  | none => s

end ChatState

/-- A fragment of the call: the first id and the first name stay, the arguments are appended. -/
def FunctionCallState.read (tool_call : Json) (f : FunctionCallState) : FunctionCallState where
  active := true
  call_id := f.call_id.or ((tool_call.get "id".toList).bind Json.as_string)
  name := f.name.or
    (((tool_call.get "function".toList).bind (Json.get "name".toList)).bind Json.as_string)
  arguments := f.arguments ++
    ((((tool_call.get "function".toList).bind (Json.get "arguments".toList)).bind
      Json.as_string).getD [])

namespace ChatState

/-- Only the first of the tool calls of a chunk is read. -/
def read_tool_calls (choice : Json) (s : ChatState) : ChatState :=
  match (((choice.get "delta".toList).bind (Json.get "tool_calls".toList)).bind
      Json.as_array).bind List.head? with
  | some tool_call => { s with fn_call_state := s.fn_call_state.read tool_call }
  | none => s

def finish (finish_reason : Text) (s : ChatState) : ChatState :=
  let s :=
    if finish_reason = "tool_calls".toList ∧ s.fn_call_state.active then
      s.flush_reasoning.send_call
    else if finish_reason = "stop".toList then s.flush_text.flush_reasoning
    else s
  s.complete []

def read_choice (choice : Json) (s : ChatState) : ChatState :=
  let s := s.read_item_id choice
  let s := s.read_content choice
  let s := s.read_delta_reasoning choice
  let s := s.read_message_reasoning choice
  s.read_tool_calls choice

/-- The state after a chunk, and whether the function has returned. -/
def step (chunk : Json) (s : ChatState) : ChatState × Bool :=
  let s := s.read_response chunk
  let s := s.read_item_id chunk
  match (chunk.get "choices".toList).bind (Json.get_index 0) with
  | none => (s, false)
  | some choice =>
    let s := s.read_choice choice
    match (choice.get "finish_reason".toList).bind Json.as_string with
    | some finish_reason => (s.finish finish_reason, true)
    | none => (s, false)

end ChatState

/-! ## The loop -/

/-- What `stream.next()` gives: data, an error, or that nothing came in time. The stream is closed
at the end of the list. -/
inductive StreamEvent where
  | data (data : Text)
  | error (e : Text)
  | timeout

/-- The first bytes of data that is not JSON. None stands for the panic of `String::truncate` in a
character. -/
def excerpt (data : Text) : Option Text :=
  if 600 < Text.len data then (Text.cut 600 data).map Prod.fst else some data

/-- The literal string that a server sends when it has finished. -/
def is_done (data : Text) : Prop :=
  Text.trim data = "[DONE]".toList ∨ Text.trim data = "DONE".toList

instance (data : Text) : Decidable (is_done data) := inferInstanceAs (Decidable (_ ∨ _))

variable (from_str : Text → Option Json)

def process : ChatState → List StreamEvent → Option ChatState
  | s, [] => some s.flush_and_complete
  | s, .error e :: _ => some (s.send (.error ("[transport] ".toList ++ e)))
  | s, .timeout :: _ => some (s.send (.error "[idle] timeout waiting for SSE".toList))
  | s, .data data :: events =>
    if Text.trim data = [] then process s events
    else if is_done data then some s.flush_and_complete
    else
      match from_str (Text.trim data) with
      | none => (excerpt data).bind fun _ => process s events
      | some chunk =>
        match s.step chunk with
        | (s, true) => some s
        | (s, false) => process s events

/-- The events that `process_chat_sse` sends, none when it panics. -/
def process_chat_sse (events : List StreamEvent) : Option (List (Except Text ResponseEvent)) :=
  (process from_str .init events).map ChatState.tx_event

/-! ## The end of the loop -/

/-- The reason that a chunk gives. -/
def finish_reason (chunk : Json) : Option Text :=
  (((chunk.get "choices".toList).bind (Json.get_index 0)).bind
    (Json.get "finish_reason".toList)).bind Json.as_string

theorem step_snd (chunk : Json) (s : ChatState) :
    (s.step chunk).2 = (finish_reason chunk).isSome := by
  unfold ChatState.step finish_reason
  rcases (chunk.get "choices".toList).bind (Json.get_index 0) with _ | choice
  · rfl
  · rw [Option.bind_some]
    dsimp only
    rcases (choice.get "finish_reason".toList).bind Json.as_string <;> rfl

/-- The loop returns at this event. -/
def Returns : StreamEvent → Prop
  | .data data =>
    Text.trim data ≠ [] ∧ (is_done data ∨ ∃ chunk, from_str (Text.trim data) = some chunk ∧
      (finish_reason chunk).isSome)
  | .error _ => True
  | .timeout => True

/-- The data is not JSON, and more than 600 bytes with a character across byte 600. -/
def Splits : StreamEvent → Prop
  | .data data =>
    Text.trim data ≠ [] ∧ ¬is_done data ∧ from_str (Text.trim data) = none ∧
      600 < Text.len data ∧ is_char_boundary data 600 = false
  | .error _ => False
  | .timeout => False

theorem excerpt_eq_none_iff (data : Text) :
    excerpt data = none ↔ 600 < Text.len data ∧ is_char_boundary data 600 = false := by
  unfold excerpt is_char_boundary
  split
  · next h => simp [h]
  · next h => simp [h]

/-- An event that the loop neither returns at nor panics at leaves it the rest. -/
theorem process_data (s : ChatState) {event : StreamEvent} (events : List StreamEvent)
    (hreturns : ¬Returns from_str event) (hsplits : ¬Splits from_str event) :
    ∃ s', process from_str s (event :: events) = process from_str s' events := by
  rcases event with data | e | _
  · unfold Returns at hreturns
    unfold Splits at hsplits
    rw [process]
    by_cases hblank : Text.trim data = []
    · exact ⟨s, by rw [if_pos hblank]⟩
    · rw [if_neg hblank]
      have hdone : ¬is_done data := fun h => hreturns ⟨hblank, .inl h⟩
      rw [if_neg hdone]
      rcases hchunk : from_str (Text.trim data) with _ | chunk
      · have hexcerpt : excerpt data ≠ none := fun h =>
          hsplits ⟨hblank, hdone, hchunk, (excerpt_eq_none_iff data).mp h⟩
        obtain ⟨text, htext⟩ := Option.ne_none_iff_exists'.mp hexcerpt
        exact ⟨s, by simp only [htext, Option.bind_some]⟩
      · have hfinish : (s.step chunk).2 = false := by
          rw [step_snd, Bool.eq_false_iff]
          exact fun h => hreturns ⟨hblank, .inr ⟨chunk, hchunk, h⟩⟩
        refine ⟨(s.step chunk).1, ?_⟩
        dsimp only
        generalize s.step chunk = next at hfinish ⊢
        obtain ⟨s', returned⟩ := next
        dsimp only at hfinish
        subst hfinish
        rfl
  · exact absurd trivial hreturns
  · exact absurd trivial hreturns

theorem process_returns {s : ChatState} {event : StreamEvent} {events : List StreamEvent}
    (h : Returns from_str event) : process from_str s (event :: events) ≠ none := by
  rcases event with data | e | _
  · obtain ⟨hblank, hdone | ⟨chunk, hchunk, hfinish⟩⟩ := h
    · rw [process, if_neg hblank, if_pos hdone]
      exact Option.some_ne_none _
    · rw [process, if_neg hblank]
      split
      · exact Option.some_ne_none _
      · rw [hchunk]
        dsimp only
        rw [← step_snd chunk s] at hfinish
        generalize s.step chunk = next at hfinish ⊢
        obtain ⟨s', returned⟩ := next
        dsimp only at hfinish
        subst hfinish
        exact Option.some_ne_none _
  · exact Option.some_ne_none _
  · exact Option.some_ne_none _

theorem process_splits {s : ChatState} {event : StreamEvent} {events : List StreamEvent}
    (h : Splits from_str event) : process from_str s (event :: events) = none := by
  rcases event with data | e | _
  · obtain ⟨hblank, hdone, hchunk, hexcerpt⟩ := h
    rw [process, if_neg hblank, if_neg hdone, hchunk]
    dsimp only
    rw [(excerpt_eq_none_iff data).mpr hexcerpt]
    rfl
  · exact h.elim
  · exact h.elim

/-- The loop panics where it reaches data that is not JSON and whose byte 600 is in a character. -/
theorem process_eq_none_iff (s : ChatState) (events : List StreamEvent) :
    process from_str s events = none ↔
      ∃ before event after, events = before ++ event :: after ∧
        (∀ e ∈ before, ¬Returns from_str e) ∧ Splits from_str event := by
  induction events generalizing s with
  | nil => simp [process]
  | cons event events ih =>
    by_cases hsplits : Splits from_str event
    · refine iff_of_true (process_splits from_str hsplits) ⟨[], event, events, rfl, ?_, hsplits⟩
      exact fun e he => absurd he List.not_mem_nil
    · by_cases hreturns : Returns from_str event
      · refine iff_of_false (process_returns from_str hreturns) ?_
        rintro ⟨before, event', after, heq, hbefore, hevent⟩
        cases before with
        | nil =>
          obtain ⟨rfl, rfl⟩ := List.cons.inj heq
          exact hsplits hevent
        | cons e before =>
          obtain ⟨rfl, rfl⟩ := List.cons.inj heq
          exact hbefore _ List.mem_cons_self hreturns
      · obtain ⟨s', hs'⟩ := process_data from_str s events hreturns hsplits
        rw [hs', ih]
        constructor
        · rintro ⟨before, event', after, rfl, hbefore, hevent⟩
          exact ⟨event :: before, event', after, rfl, List.forall_mem_cons.mpr ⟨hreturns, hbefore⟩,
            hevent⟩
        · rintro ⟨before, event', after, heq, hbefore, hevent⟩
          cases before with
          | nil =>
            obtain ⟨rfl, rfl⟩ := List.cons.inj heq
            exact absurd hevent hsplits
          | cons e before =>
            obtain ⟨rfl, rfl⟩ := List.cons.inj heq
            exact ⟨before, event', after, rfl, (List.forall_mem_cons.mp hbefore).2, hevent⟩

end Ecode.chat_completions
