-- The turns that a server may cut into the chunks of a Chat Completions stream, and which of
-- them the decoder gives back.
import Ecode.ChatSse
import Ecode.TextLines

namespace Ecode.chat_completions

open json

variable (from_str : Text → Option Json)

/-! ## Turns and the chunks that a server cuts them into -/

structure ToolCall where
  id : Text
  name : Text
  arguments : Text
  deriving DecidableEq

structure Turn where
  text : Text
  reasoning : Text
  calls : List ToolCall

/-- A fragment of the call at an index of the turn. -/
structure Fragment where
  index : Nat
  id : Option Text
  name : Option Text
  arguments : Option Text
  deriving DecidableEq

/-- How a provider writes the reasoning of a chunk. -/
inductive ReasoningForm where
  | plain
  | text
  | content

structure Delta where
  id : Option Text
  model : Option Text
  role : Option Text
  content : Option Text
  reasoning : Option (ReasoningForm × Text)
  tool_calls : List Fragment
  /-- A field without a value is written as `null`, not left out. -/
  writes_null : Bool

namespace Fragment

def to_json (f : Fragment) : Json :=
  Json.fields [("index".toList, some (.number f.index)), ("id".toList, f.id.map .string),
    ("type".toList, some (.string "function".toList)),
    ("function".toList, some (Json.fields [("name".toList, f.name.map .string),
      ("arguments".toList, f.arguments.map .string)]))]

end Fragment

namespace ReasoningForm

def to_json (text : Text) : ReasoningForm → Json
  | plain => .string text
  | .text => .object [("text".toList, .string text)]
  | content => .object [("content".toList, .string text)]

end ReasoningForm

namespace Delta

/-- A value or what stands for none. -/
def write (d : Delta) (value : Option Json) : Option Json :=
  value.or (if d.writes_null then some .null else none)

def delta_json (d : Delta) : Json :=
  Json.fields [("role".toList, d.write (d.role.map .string)),
    ("content".toList, d.write (d.content.map .string)),
    ("reasoning".toList, d.write (d.reasoning.map fun r => r.1.to_json r.2)),
    ("tool_calls".toList, d.write
      (if d.tool_calls = [] then none else some (.array (d.tool_calls.map Fragment.to_json))))]

def choice_json (d : Delta) (finish_reason : Option Text) : Json :=
  Json.fields [("index".toList, some (.number 0)), ("delta".toList, some d.delta_json),
    ("finish_reason".toList, d.write (finish_reason.map .string))]

/-- The chunk of a delta, with the reason when it is the last one. -/
def to_json (d : Delta) (finish_reason : Option Text) : Json :=
  Json.fields [("id".toList, d.write (d.id.map .string)),
    ("object".toList, some (.string "chat.completion.chunk".toList)),
    ("model".toList, d.write (d.model.map .string)),
    ("choices".toList, some (.array [d.choice_json finish_reason]))]

def text (d : Delta) : Text := d.content.getD []

def thinking (d : Delta) : Text := (d.reasoning.map Prod.snd).getD []

end Delta

/-- The fragments of the call at an index, in the order that they come. -/
def fragments_of (i : Nat) (deltas : List Delta) : List Fragment :=
  (deltas.flatMap Delta.tool_calls).filter (·.index = i)

/-- The strings that the fragments carry, put together. -/
def assemble (fragments : List Fragment) : ToolCall where
  id := fragments.flatMap (·.id.getD [])
  name := fragments.flatMap (·.name.getD [])
  arguments := fragments.flatMap (·.arguments.getD [])

/-- The deltas carry the turn: its text and reasoning in pieces, and each of its calls in one or
more fragments with its index. -/
structure Turn.CutInto (turn : Turn) (deltas : List Delta) : Prop where
  text : deltas.flatMap Delta.text = turn.text
  reasoning : deltas.flatMap Delta.thinking = turn.reasoning
  index_lt : ∀ f ∈ deltas.flatMap Delta.tool_calls, f.index < turn.calls.length
  carried : ∀ i < turn.calls.length, fragments_of i deltas ≠ []
  assembled : ∀ i (h : i < turn.calls.length),
    assemble (fragments_of i deltas) = turn.calls.get ⟨i, h⟩

/-- How the server ends the turn: with a reason in its last chunk, or with `[DONE]`. -/
inductive Ending where
  | finish (finish_reason : Text)
  | done

/-- The data is a chunk with this value. -/
def Carries (data : Text) (value : Json) : Prop :=
  Text.trim data ≠ [] ∧ ¬is_done data ∧ from_str (Text.trim data) = some value

/-- The events of a stream of deltas. Blank data may stand between them, and anything after the
end. -/
inductive Encodes : List Delta → Ending → List StreamEvent → Prop where
  | blank {deltas ending events data} (h : Text.trim data = [])
      (rest : Encodes deltas ending events) : Encodes deltas ending (.data data :: events)
  | chunk {d deltas ending events data} (h : Carries from_str data (d.to_json none))
      (rest : Encodes deltas ending events) : Encodes (d :: deltas) ending (.data data :: events)
  | finish {d finish_reason events data}
      (h : Carries from_str data (d.to_json (some finish_reason))) :
      Encodes [d] (.finish finish_reason) (.data data :: events)
  | done {events data} (h : Text.trim data = "[DONE]".toList) :
      Encodes [] .done (.data data :: events)

/-! ## What is reported -/

/-- What the receiver is told of the turn. -/
inductive Report where
  | text (text : Text)
  | reasoning (text : Text)
  | tool_call (call : ToolCall)
  | completed
  | failed
  | other
  deriving DecidableEq

def report_item : ResponseItem (List Text) → Report
  | .Message _ role [.OutputText text] _ _ =>
    if role = "assistant".toList then .text text else .other
  | .Reasoning _ [] (some [text]) _ => .reasoning text
  | .FunctionCall _ name _ arguments call_id => .tool_call ⟨call_id, name, arguments⟩
  | _ => .other

/-- The pieces that come before an item are not items. -/
def report : Except Text ResponseEvent → Option Report
  | .ok (.OutputItemDone item) => some (report_item item)
  | .ok (.Completed _) => some .completed
  | .error _ => some .failed
  | .ok _ => none

def text_reports (text : Text) : List Report := if text = [] then [] else [.text text]

def reasoning_reports (reasoning : Text) : List Report :=
  if reasoning = [] then [] else [.reasoning reasoning]

def Turn.reports (turn : Turn) : List Report :=
  text_reports turn.text ++ reasoning_reports turn.reasoning ++ turn.calls.map .tool_call

/-- The items are those of the turn, each once, and one `Completed` follows them. -/
def Faithful (turn : Turn) (events : List StreamEvent) : Prop :=
  ∃ sent items, process_chat_sse from_str events = some sent ∧
    sent.filterMap report = items ++ [.completed] ∧ List.Perm items turn.reports

/-! ## What a chunk adds -/

/-- The state has gathered this, and nothing of it is reported. -/
structure Gathered (s : ChatState) (text reasoning : Text) (call : FunctionCallState) : Prop where
  text : s.assistant_text = text
  reasoning : s.reasoning_text = reasoning
  call : s.fn_call_state = call
  unreported : s.tx_event.filterMap report = []

def FunctionCallState.add (call : FunctionCallState) (f : Fragment) : FunctionCallState where
  active := true
  call_id := call.call_id.or f.id
  name := call.name.or f.name
  arguments := call.arguments ++ f.arguments.getD []

def FunctionCallState.tool_call (call : FunctionCallState) : ToolCall where
  id := call.call_id.getD []
  name := call.name.getD []
  arguments := call.arguments

/-- The items that an ending reports of what is gathered. -/
def item_reports (ending : Ending) (text reasoning : Text) (call : FunctionCallState) :
    List Report :=
  match ending with
  | .done => text_reports text ++ reasoning_reports reasoning
  | .finish reason =>
    if reason = "tool_calls".toList ∧ call.active then
      reasoning_reports reasoning ++ [.tool_call call.tool_call]
    else if reason = "stop".toList then text_reports text ++ reasoning_reports reasoning
    else []

/-- The fragments that come first in their chunks. -/
def leading (deltas : List Delta) : List Fragment := deltas.filterMap (·.tool_calls.head?)

section

variable {s : ChatState} {text reasoning : Text} {call : FunctionCallState}

theorem Gathered.send (h : Gathered s text reasoning call) {event : Except Text ResponseEvent}
    (hevent : report event = none) : Gathered (s.send event) text reasoning call where
  text := h.text
  reasoning := h.reasoning
  call := h.call
  unreported := by
    unfold ChatState.send
    rw [List.filterMap_append, h.unreported, List.filterMap_cons_none hevent]
    rfl

theorem Gathered.read_response (h : Gathered s text reasoning call) (chunk : Json) :
    Gathered (s.read_response chunk) text reasoning call := by
  unfold ChatState.read_response
  extract_lets s₁ s₂
  have h₁ : Gathered s₁ text reasoning call := by
    unfold s₁
    split
    · exact ⟨h.text, h.reasoning, h.call, h.unreported⟩
    · exact h
  have h₂ : Gathered s₂ text reasoning call := by
    unfold s₂
    split
    · exact ⟨h₁.text, h₁.reasoning, h₁.call, h₁.unreported⟩
    · exact h₁
  split
  · have hmarked : Gathered { s₂ with created_emitted := true } text reasoning call :=
      ⟨h₂.text, h₂.reasoning, h₂.call, h₂.unreported⟩
    exact hmarked.send rfl
  · exact h₂

theorem Gathered.read_item_id (h : Gathered s text reasoning call) (value : Json) :
    Gathered (s.read_item_id value) text reasoning call := by
  unfold ChatState.read_item_id
  split
  · exact ⟨h.text, h.reasoning, h.call, h.unreported⟩
  · exact h

theorem Gathered.push_text (h : Gathered s text reasoning call) (content : Text) :
    Gathered (s.push_text content) (text ++ content) reasoning call := by
  unfold ChatState.push_text
  split
  · next hempty =>
    rw [hempty, List.append_nil]
    exact h
  · have hpushed : Gathered { s with assistant_text := s.assistant_text ++ content }
        (text ++ content) reasoning call :=
      ⟨by rw [h.text], h.reasoning, h.call, h.unreported⟩
    exact hpushed.send rfl

theorem Gathered.push_reasoning (h : Gathered s text reasoning call) (content : Text) :
    Gathered (s.push_reasoning content) text (reasoning ++ content) call := by
  unfold ChatState.push_reasoning
  split
  · next hempty =>
    rw [hempty, List.append_nil]
    exact h
  · have hpushed : Gathered { s with reasoning_text := s.reasoning_text ++ content } text
        (reasoning ++ content) call :=
      ⟨h.text, by rw [h.reasoning], h.call, h.unreported⟩
    exact hpushed.send rfl

end

/-! ## The fields of a chunk -/

namespace Delta

variable (d : Delta)

theorem write_string (value : Option Text) :
    (d.write (value.map .string)).bind Json.as_string = value := by
  unfold write
  rcases value with _ | value
  · cases d.writes_null <;> rfl
  · rfl

theorem get_to_json (reason : Option Text) (key : Text) :
    (d.to_json reason).get key = (List.lookup key
      [("id".toList, d.write (d.id.map .string)),
        ("object".toList, some (.string "chat.completion.chunk".toList)),
        ("model".toList, d.write (d.model.map .string)),
        ("choices".toList, some (.array [d.choice_json reason]))]).join :=
  Json.get_fields (by simp) key

theorem choice_of (reason : Option Text) :
    ((d.to_json reason).get "choices".toList).bind (Json.get_index 0) =
      some (d.choice_json reason) := by
  rw [get_to_json]
  simp [List.lookup_cons]
  rfl

theorem get_choice_json (reason : Option Text) (key : Text) :
    (d.choice_json reason).get key = (List.lookup key
      [("index".toList, some (.number 0)), ("delta".toList, some d.delta_json),
        ("finish_reason".toList, d.write (reason.map .string))]).join :=
  Json.get_fields (by simp) key

theorem choice_message (reason : Option Text) :
    (d.choice_json reason).get "message".toList = none := by
  rw [get_choice_json]
  simp [List.lookup_cons]

theorem choice_delta (reason : Option Text) :
    (d.choice_json reason).get "delta".toList = some d.delta_json := by
  rw [get_choice_json]
  simp [List.lookup_cons]

theorem choice_finish_reason (reason : Option Text) :
    ((d.choice_json reason).get "finish_reason".toList).bind Json.as_string = reason := by
  rw [get_choice_json]
  simp [List.lookup_cons, write_string]

theorem get_delta_json (key : Text) :
    d.delta_json.get key = (List.lookup key
      [("role".toList, d.write (d.role.map .string)),
        ("content".toList, d.write (d.content.map .string)),
        ("reasoning".toList, d.write (d.reasoning.map fun r => r.1.to_json r.2)),
        ("tool_calls".toList, d.write
          (if d.tool_calls = [] then none
            else some (.array (d.tool_calls.map Fragment.to_json))))]).join :=
  Json.get_fields (by simp) key

theorem delta_content : (d.delta_json.get "content".toList).bind Json.as_string = d.content := by
  rw [get_delta_json]
  simp [List.lookup_cons, write_string]

theorem delta_reasoning_of :
    (d.delta_json.get "reasoning".toList).bind ChatState.delta_reasoning =
      (d.reasoning.map Prod.snd).filter (· ≠ []) := by
  have hget : d.delta_json.get "reasoning".toList =
      d.write (d.reasoning.map fun r => r.1.to_json r.2) := by
    rw [get_delta_json]
    simp [List.lookup_cons]
  rw [hget]
  unfold write
  rcases d.reasoning with _ | ⟨form, t⟩
  · cases d.writes_null <;> rfl
  · cases form <;> cases t <;> rfl

theorem delta_tool_calls :
    ((d.delta_json.get "tool_calls".toList).bind Json.as_array).bind List.head? =
      d.tool_calls.head?.map Fragment.to_json := by
  have hget : d.delta_json.get "tool_calls".toList = d.write
      (if d.tool_calls = [] then none
        else some (.array (d.tool_calls.map Fragment.to_json))) := by
    rw [get_delta_json]
    simp [List.lookup_cons]
  rw [hget]
  unfold write
  rcases d.tool_calls with _ | ⟨f, fs⟩
  · cases d.writes_null <;> rfl
  · rfl

end Delta

theorem string_of_map (value : Option Text) :
    (value.map Json.string).bind Json.as_string = value := by
  cases value <;> rfl

namespace Fragment

variable (f : Fragment)

def function_json : Json :=
  Json.fields [("name".toList, f.name.map .string), ("arguments".toList, f.arguments.map .string)]

theorem get_to_json (key : Text) :
    f.to_json.get key = (List.lookup key
      [("index".toList, some (.number f.index)), ("id".toList, f.id.map .string),
        ("type".toList, some (.string "function".toList)),
        ("function".toList, some f.function_json)]).join :=
  Json.get_fields (by simp) key

theorem get_function_json (key : Text) :
    f.function_json.get key = (List.lookup key
      [("name".toList, f.name.map .string), ("arguments".toList, f.arguments.map .string)]).join :=
  Json.get_fields (by simp) key

theorem id_of : (f.to_json.get "id".toList).bind Json.as_string = f.id := by
  rw [get_to_json]
  simp [List.lookup_cons, string_of_map]

theorem function_of : f.to_json.get "function".toList = some f.function_json := by
  rw [get_to_json]
  simp [List.lookup_cons]

theorem name_of : (f.function_json.get "name".toList).bind Json.as_string = f.name := by
  rw [get_function_json]
  simp [string_of_map]

theorem arguments_of :
    (f.function_json.get "arguments".toList).bind Json.as_string = f.arguments := by
  rw [get_function_json]
  simp [List.lookup_cons, string_of_map]

end Fragment

/-- A fragment is read as it was written. -/
theorem FunctionCallState.read_to_json (call : FunctionCallState) (f : Fragment) :
    call.read f.to_json = call.add f := by
  unfold read add
  rw [f.id_of, f.function_of, Option.bind_some, Option.bind_some, f.name_of, f.arguments_of]

/-! ## A chunk adds its delta -/

/-- Only the first fragment of a chunk is added. -/
def FunctionCallState.after (call : FunctionCallState) (d : Delta) : FunctionCallState :=
  match d.tool_calls.head? with
  | some f => call.add f
  | none => call

theorem Gathered.read_choice {s : ChatState} {text reasoning : Text} {call : FunctionCallState}
    (h : Gathered s text reasoning call) (d : Delta) (reason : Option Text) :
    Gathered (s.read_choice (d.choice_json reason)) (text ++ d.text) (reasoning ++ d.thinking)
      (call.after d) := by
  unfold ChatState.read_choice
  extract_lets s₁ s₂ s₃ s₄
  have h₁ : Gathered s₁ text reasoning call := h.read_item_id _
  have h₂ : Gathered s₂ (text ++ d.text) reasoning call := by
    unfold s₂ ChatState.read_content Delta.text
    rw [d.choice_delta, Option.bind_some, d.delta_content]
    rcases d.content with _ | content
    · simpa using h₁
    · exact h₁.push_text content
  have h₃ : Gathered s₃ (text ++ d.text) (reasoning ++ d.thinking) call := by
    unfold s₃ ChatState.read_delta_reasoning Delta.thinking
    rw [d.choice_delta, Option.bind_some, d.delta_reasoning_of]
    rcases d.reasoning.map Prod.snd with _ | thinking
    · simpa using h₂
    · rw [Option.filter_some, Option.getD_some]
      by_cases hempty : thinking = []
      · rw [if_neg (by simpa using hempty), hempty, List.append_nil]
        exact h₂
      · rw [if_pos (by simpa using hempty)]
        exact h₂.push_reasoning thinking
  have h₄ : Gathered s₄ (text ++ d.text) (reasoning ++ d.thinking) call := by
    unfold s₄ ChatState.read_message_reasoning
    rw [d.choice_message]
    exact h₃
  unfold ChatState.read_tool_calls FunctionCallState.after
  rw [d.choice_delta, Option.bind_some, d.delta_tool_calls]
  rcases d.tool_calls.head? with _ | f
  · exact h₄
  · dsimp only [Option.map_some]
    rw [FunctionCallState.read_to_json]
    exact ⟨h₄.text, h₄.reasoning, by rw [h₄.call], h₄.unreported⟩

/-- A chunk adds its delta to what is gathered, and the loop goes on or, at a reason, finishes. -/
theorem Gathered.step {s : ChatState} {text reasoning : Text} {call : FunctionCallState}
    (h : Gathered s text reasoning call) (d : Delta) (reason : Option Text) :
    ∃ s', Gathered s' (text ++ d.text) (reasoning ++ d.thinking) (call.after d) ∧
      s.step (d.to_json reason) =
        match reason with
        | some r => (s'.finish r, true)
        | none => (s', false) := by
  have hread := (h.read_response (d.to_json reason)).read_item_id (d.to_json reason)
  refine ⟨_, hread.read_choice d reason, ?_⟩
  unfold ChatState.step
  rw [d.choice_of]
  dsimp only
  cases reason with
  | none => rw [d.choice_finish_reason]
  | some r => rw [d.choice_finish_reason]

/-! ## The reports of a stream -/

namespace ChatState

theorem flush_text_reports (s : ChatState) :
    s.flush_text.tx_event.filterMap report =
      s.tx_event.filterMap report ++ text_reports s.assistant_text := by
  unfold flush_text text_reports
  split
  · rw [List.append_nil]
  · unfold send
    rw [List.filterMap_append]
    rfl

theorem flush_text_reasoning_text (s : ChatState) :
    s.flush_text.reasoning_text = s.reasoning_text := by
  unfold flush_text
  split <;> rfl

theorem flush_reasoning_reports (s : ChatState) :
    s.flush_reasoning.tx_event.filterMap report =
      s.tx_event.filterMap report ++ reasoning_reports s.reasoning_text := by
  unfold flush_reasoning reasoning_reports
  split
  · rw [List.append_nil]
  · unfold send
    rw [List.filterMap_append]
    rfl

theorem flush_reasoning_call (s : ChatState) :
    s.flush_reasoning.fn_call_state = s.fn_call_state := by
  unfold flush_reasoning
  split <;> rfl

theorem send_call_reports (s : ChatState) :
    s.send_call.tx_event.filterMap report =
      s.tx_event.filterMap report ++ [.tool_call s.fn_call_state.tool_call] := by
  unfold send_call send
  rw [List.filterMap_append]
  rfl

theorem complete_reports (s : ChatState) (response_id : Text) :
    (s.complete response_id).tx_event.filterMap report =
      s.tx_event.filterMap report ++ [.completed] := by
  unfold complete send
  rw [List.filterMap_append]
  rfl

end ChatState

section

variable {s : ChatState} {text reasoning : Text} {call : FunctionCallState}

theorem Gathered.flushed (h : Gathered s text reasoning call) :
    s.flush_text.flush_reasoning.tx_event.filterMap report =
      text_reports text ++ reasoning_reports reasoning := by
  rw [ChatState.flush_reasoning_reports, ChatState.flush_text_reports,
    ChatState.flush_text_reasoning_text, h.unreported, h.text, h.reasoning, List.nil_append]

theorem Gathered.flush_and_complete (h : Gathered s text reasoning call) :
    s.flush_and_complete.tx_event.filterMap report =
      item_reports .done text reasoning call ++ [.completed] := by
  unfold ChatState.flush_and_complete item_reports
  rw [ChatState.complete_reports, h.flushed]

theorem Gathered.finish (h : Gathered s text reasoning call) (reason : Text) :
    (s.finish reason).tx_event.filterMap report =
      item_reports (.finish reason) text reasoning call ++ [.completed] := by
  unfold ChatState.finish item_reports
  dsimp only
  rw [ChatState.complete_reports, h.call]
  split
  · rw [ChatState.send_call_reports, ChatState.flush_reasoning_reports,
      ChatState.flush_reasoning_call, h.unreported, h.reasoning, h.call, List.nil_append]
  · split
    · rw [h.flushed]
    · rw [h.unreported]

end

variable {from_str}

/-- What the loop reports of a stream of deltas is what they add up to. -/
theorem Encodes.process {deltas : List Delta} {ending : Ending} {events : List StreamEvent}
    (h : Encodes from_str deltas ending events) {s : ChatState} {text reasoning : Text}
    {call : FunctionCallState} (hs : Gathered s text reasoning call) :
    ∃ s', process from_str s events = some s' ∧ s'.tx_event.filterMap report =
      item_reports ending (text ++ deltas.flatMap Delta.text)
        (reasoning ++ deltas.flatMap Delta.thinking)
        (deltas.foldl FunctionCallState.after call) ++ [.completed] := by
  induction h generalizing s text reasoning call with
  | blank hblank _ ih =>
    obtain ⟨s', hs', hreports⟩ := ih hs
    exact ⟨s', by rw [chat_completions.process, if_pos hblank, hs'], hreports⟩
  | @chunk d deltas _ _ _ hdata _ ih =>
    obtain ⟨hne, hdone, hparsed⟩ := hdata
    obtain ⟨s₁, hs₁, hstep⟩ := hs.step d none
    obtain ⟨s', hs', hreports⟩ := ih hs₁
    refine ⟨s', ?_, ?_⟩
    · rw [chat_completions.process, if_neg hne, if_neg hdone, hparsed]
      dsimp only
      rw [hstep]
      exact hs'
    · rw [hreports, List.flatMap_cons, List.flatMap_cons, List.append_assoc, List.append_assoc]
      rfl
  | @finish d reason _ _ hdata =>
    obtain ⟨hne, hdone, hparsed⟩ := hdata
    obtain ⟨s₁, hs₁, hstep⟩ := hs.step d (some reason)
    refine ⟨s₁.finish reason, ?_, ?_⟩
    · rw [chat_completions.process, if_neg hne, if_neg hdone, hparsed]
      dsimp only
      rw [hstep]
    · rw [hs₁.finish reason, List.flatMap_singleton, List.flatMap_singleton]
      rfl
  | @done _ data hdata =>
    refine ⟨s.flush_and_complete, ?_, ?_⟩
    · have hne : Text.trim data ≠ [] := by
        rw [hdata]
        decide
      rw [chat_completions.process, if_neg hne, if_pos (.inl hdata)]
    · rw [hs.flush_and_complete, List.flatMap_nil, List.flatMap_nil, List.append_nil,
        List.append_nil]
      rfl

/-! ## The call that is put together -/

theorem foldl_after (deltas : List Delta) (call : FunctionCallState) :
    deltas.foldl FunctionCallState.after call =
      (leading deltas).foldl FunctionCallState.add call := by
  induction deltas generalizing call with
  | nil => rfl
  | cons d deltas ih =>
    rw [List.foldl_cons, ih]
    unfold FunctionCallState.after leading
    rw [List.filterMap_cons]
    cases d.tool_calls.head? <;> rfl

theorem foldl_add (fs : List Fragment) (call : FunctionCallState) :
    fs.foldl FunctionCallState.add call =
      { name := call.name.or (fs.findSome? Fragment.name)
        arguments := call.arguments ++ fs.flatMap (·.arguments.getD [])
        call_id := call.call_id.or (fs.findSome? Fragment.id)
        active := call.active || !fs.isEmpty } := by
  induction fs generalizing call with
  | nil => simp
  | cons f fs ih =>
    rw [List.foldl_cons, ih]
    unfold FunctionCallState.add
    rcases f with ⟨_, _ | _, _ | _, _⟩ <;> simp

/-- The first elements of lists carry all that the lists carry just where the others carry
nothing. -/
theorem flatMap_heads_iff {α β γ : Type} (lists : List β) (elements : β → List α) (g : α → List γ) :
    (lists.filterMap fun l => (elements l).head?).flatMap g =
        (lists.flatMap elements).flatMap g ↔
      ∀ l ∈ lists, ∀ a ∈ (elements l).tail, g a = [] := by
  induction lists with
  | nil => simp
  | cons l lists ih =>
    have hle : ((lists.filterMap fun l => (elements l).head?).flatMap g).length ≤
        ((lists.flatMap elements).flatMap g).length := by
      clear ih
      induction lists with
      | nil => simp
      | cons l lists ih =>
        rw [List.filterMap_cons, List.flatMap_cons, List.flatMap_append]
        rcases elements l with _ | ⟨a, rest⟩
        · simpa using ih
        · simp only [List.head?_cons, List.flatMap_cons, List.length_append]
          omega
    rw [List.filterMap_cons, List.flatMap_cons, List.flatMap_append, List.forall_mem_cons, ← ih]
    rcases elements l with _ | ⟨a, rest⟩
    · simp
    · simp only [List.head?_cons, List.flatMap_cons, List.append_assoc, List.append_cancel_left_eq,
        List.tail_cons]
      constructor
      · intro heq
        have hrest : rest.flatMap g = [] := by
          have hlen := congrArg List.length heq
          rw [List.length_append] at hlen
          exact List.eq_nil_of_length_eq_zero (by omega)
        refine ⟨List.flatMap_eq_nil_iff.mp hrest, ?_⟩
        rw [heq, hrest, List.nil_append]
      · rintro ⟨hrest, heq⟩
        rw [List.flatMap_eq_nil_iff.mpr hrest, heq, List.nil_append]

/-- The call comes with the first fragments of the chunks: the first id and the first name there
are its own, and the other fragments carry no arguments. -/
structure Leads (deltas : List Delta) (call : ToolCall) : Prop where
  id : ((leading deltas).findSome? Fragment.id).getD [] = call.id
  name : ((leading deltas).findSome? Fragment.name).getD [] = call.name
  arguments : ∀ d ∈ deltas, ∀ f ∈ d.tool_calls.tail, f.arguments.getD [] = []

/-- The call that the loop has put together at the end. -/
def gathered_call (deltas : List Delta) : FunctionCallState :=
  deltas.foldl FunctionCallState.after ChatState.init.fn_call_state

section

variable {turn : Turn} {deltas : List Delta}

theorem Turn.CutInto.active_iff (h : turn.CutInto deltas) :
    (gathered_call deltas).active ↔ turn.calls ≠ [] := by
  have hactive : (gathered_call deltas).active ↔ deltas.flatMap Delta.tool_calls ≠ [] := by
    unfold gathered_call
    rw [foldl_after, foldl_add]
    unfold leading
    simp [ChatState.init, List.filterMap_eq_nil_iff]
  rw [hactive, not_iff_not]
  constructor
  · intro hnone
    by_contra hcalls
    refine h.carried 0 (List.length_pos_of_ne_nil hcalls) ?_
    unfold fragments_of
    rw [hnone]
    rfl
  · intro hcalls
    refine List.eq_nil_iff_forall_not_mem.mpr fun f hf => ?_
    have hlt := h.index_lt f hf
    rw [hcalls] at hlt
    exact Nat.not_lt_zero _ hlt

/-- An only call is what the loop has put together just where it comes with the first fragments. -/
theorem Turn.CutInto.tool_call_iff (h : turn.CutInto deltas) {call : ToolCall}
    (hcalls : turn.calls = [call]) :
    (gathered_call deltas).tool_call = call ↔ Leads deltas call := by
  have hall : fragments_of 0 deltas = deltas.flatMap Delta.tool_calls := by
    unfold fragments_of
    rw [List.filter_eq_self]
    intro f hf
    have hlt := h.index_lt f hf
    rw [hcalls, List.length_singleton] at hlt
    exact decide_eq_true (by omega)
  have harguments : (deltas.flatMap Delta.tool_calls).flatMap (·.arguments.getD []) =
      call.arguments := by
    have hlt : 0 < turn.calls.length := by rw [hcalls]; exact Nat.one_pos
    have hget : turn.calls.get ⟨0, hlt⟩ = call := by simp [hcalls]
    have hassembled := h.assembled 0 hlt
    rw [hall, hget] at hassembled
    exact congrArg ToolCall.arguments hassembled
  have hheads := flatMap_heads_iff deltas Delta.tool_calls (fun f => f.arguments.getD [])
  rw [harguments] at hheads
  have hcall : (gathered_call deltas).tool_call =
      ⟨((leading deltas).findSome? Fragment.id).getD [],
        ((leading deltas).findSome? Fragment.name).getD [],
        (leading deltas).flatMap (·.arguments.getD [])⟩ := by
    unfold gathered_call FunctionCallState.tool_call
    rw [foldl_after, foldl_add]
    rfl
  rw [hcall, ToolCall.mk.injEq]
  constructor
  · rintro ⟨hid, hname, hargs⟩
    exact ⟨hid, hname, hheads.mp hargs⟩
  · rintro ⟨hid, hname, hargs⟩
    exact ⟨hid, hname, hheads.mpr hargs⟩

end

/-! ## Which turns come through -/

/-- The ending is one that reports the turn. Without calls the turn must end with `stop` or
`[DONE]`, or be empty. With calls it must end with `tool_calls`, without text, and there must be
one call only, which comes with the first fragments of the chunks. -/
def Readable (turn : Turn) (deltas : List Delta) : Ending → Prop
  | .done => turn.calls = []
  | .finish reason =>
    if reason = "stop".toList then turn.calls = []
    else if reason = "tool_calls".toList ∧ turn.calls ≠ [] then
      turn.text = [] ∧ ∃ call, turn.calls = [call] ∧ Leads deltas call
    else turn.text = [] ∧ turn.reasoning = [] ∧ turn.calls = []

theorem text_reports_eq_nil_iff (text : Text) : text_reports text = [] ↔ text = [] := by
  unfold text_reports
  split <;> simp [*]

theorem reasoning_reports_eq_nil_iff (reasoning : Text) :
    reasoning_reports reasoning = [] ↔ reasoning = [] := by
  unfold reasoning_reports
  split <;> simp [*]

theorem perm_without_calls (turn : Turn) :
    List.Perm (text_reports turn.text ++ reasoning_reports turn.reasoning) turn.reports ↔
      turn.calls = [] := by
  unfold Turn.reports
  constructor
  · intro h
    have hlen := h.length_eq
    simp only [List.length_append, List.length_map] at hlen
    exact List.eq_nil_of_length_eq_zero (by omega)
  · intro h
    rw [h, List.map_nil, List.append_nil]

theorem perm_with_call (turn : Turn) (call : ToolCall) :
    List.Perm (reasoning_reports turn.reasoning ++ [.tool_call call]) turn.reports ↔
      turn.text = [] ∧ turn.calls = [call] := by
  unfold Turn.reports
  have hmove : List.Perm
      (text_reports turn.text ++ reasoning_reports turn.reasoning ++ turn.calls.map .tool_call)
      (reasoning_reports turn.reasoning ++
        (text_reports turn.text ++ turn.calls.map .tool_call)) := by
    rw [← List.append_assoc]
    exact List.perm_append_comm.append_right _
  rw [List.Perm.congr_right hmove, List.perm_append_left_iff, List.singleton_perm]
  constructor
  · intro h
    have htext : turn.text = [] := by
      by_contra htext
      unfold text_reports at h
      rw [if_neg htext] at h
      simp at h
    rw [(text_reports_eq_nil_iff _).mpr htext, List.nil_append] at h
    obtain ⟨call', hcall', heq⟩ := List.map_eq_singleton_iff.mp h.symm
    exact ⟨htext, by rw [hcall', (Report.tool_call.inj heq)]⟩
  · rintro ⟨htext, hcalls⟩
    rw [(text_reports_eq_nil_iff _).mpr htext, hcalls]
    rfl

theorem perm_of_nothing (turn : Turn) :
    List.Perm [] turn.reports ↔ turn.text = [] ∧ turn.reasoning = [] ∧ turn.calls = [] := by
  rw [List.nil_perm]
  unfold Turn.reports
  rw [List.append_eq_nil_iff, List.append_eq_nil_iff, text_reports_eq_nil_iff,
    reasoning_reports_eq_nil_iff, List.map_eq_nil_iff, and_assoc]

theorem init_gathered : Gathered .init [] [] ChatState.init.fn_call_state := ⟨rfl, rfl, rfl, rfl⟩

variable {turn : Turn} {deltas : List Delta} {ending : Ending} {events : List StreamEvent}

/-- Nothing but what the deltas add up to decides whether the turn is reported. -/
theorem Encodes.faithful_iff (hcut : turn.CutInto deltas)
    (h : Encodes from_str deltas ending events) :
    Faithful from_str turn events ↔ List.Perm
      (item_reports ending turn.text turn.reasoning (gathered_call deltas)) turn.reports := by
  obtain ⟨s, hs, hreports⟩ := h.process init_gathered
  rw [List.nil_append, List.nil_append, hcut.text, hcut.reasoning] at hreports
  have hsent : process_chat_sse from_str events = some s.tx_event := by
    unfold process_chat_sse
    rw [hs]
    rfl
  unfold Faithful
  constructor
  · rintro ⟨sent, items, hsent', hitems, hperm⟩
    obtain rfl := Option.some.inj (hsent.symm.trans hsent')
    rw [hreports] at hitems
    rw [← List.append_cancel_right hitems] at hperm
    exact hperm
  · intro hperm
    exact ⟨s.tx_event, _, hsent, hreports, hperm⟩

/-- The turn is reported just where its ending is one that reports it. -/
theorem Encodes.faithful_iff_readable (hcut : turn.CutInto deltas)
    (h : Encodes from_str deltas ending events) :
    Faithful from_str turn events ↔ Readable turn deltas ending := by
  rw [h.faithful_iff hcut]
  cases ending with
  | done => exact perm_without_calls turn
  | finish reason =>
    unfold item_reports Readable
    dsimp only
    by_cases hstop : reason = "stop".toList
    · have hother : reason ≠ "tool_calls".toList := by
        rw [hstop]
        decide
      rw [if_neg (fun hcalls => hother hcalls.1), if_pos hstop, if_pos hstop]
      exact perm_without_calls turn
    · rw [if_neg hstop, if_neg hstop]
      by_cases hcalls : reason = "tool_calls".toList ∧ turn.calls ≠ []
      · rw [if_pos hcalls, if_pos ⟨hcalls.1, hcut.active_iff.mpr hcalls.2⟩, perm_with_call,
          and_congr_right_iff]
        intro _
        constructor
        · intro honly
          exact ⟨_, honly, (hcut.tool_call_iff honly).mp rfl⟩
        · rintro ⟨call, honly, hleads⟩
          rw [(hcut.tool_call_iff honly).mpr hleads, honly]
      · rw [if_neg hcalls, if_neg (fun hactive => hcalls ⟨hactive.1, hcut.active_iff.mp hactive.2⟩)]
        exact perm_of_nothing turn

/-- The decoder reports a turn just where the ending is one that reports it, and it panics just
where the loop reaches data that is not JSON and whose byte 600 is in a character. -/
theorem turn_is_reported_iff (from_str : Text → Option Json) :
    (∀ turn deltas ending events, turn.CutInto deltas → Encodes from_str deltas ending events →
      (Faithful from_str turn events ↔ Readable turn deltas ending)) ∧
    ∀ events, process_chat_sse from_str events ≠ none ↔
      ¬∃ before event after, events = before ++ event :: after ∧
        (∀ e ∈ before, ¬Returns from_str e) ∧ Splits from_str event := by
  refine ⟨fun turn deltas ending events hcut h => h.faithful_iff_readable hcut, fun events => ?_⟩
  unfold process_chat_sse
  rw [ne_eq, Option.map_eq_none_iff, process_eq_none_iff]

/-! A chunk with the reasoning and the call of a turn. -/

/-- The parser on one text that is JSON, and others that are not. -/
def reads (data : Text) (value : Json) (t : Text) : Option Json :=
  if t = data then some value else none

/-- The text of an object with these fields. -/
def in_braces (entries : Text) : Text := '\x7b' :: (entries ++ ['\x7d'])

theorem reads_in_braces (entries : Text) (value : Json) :
    Carries (reads (in_braces entries) value) (in_braces entries) value := by
  have htrim : Text.trim (in_braces entries) = in_braces entries := by
    refine Text.trim_eq_self ?_ ?_
    · simp [in_braces, Text.is_whitespace]
    · simp [in_braces, List.getLast?_cons, Text.is_whitespace]
  unfold Carries is_done
  rw [htrim]
  refine ⟨List.cons_ne_nil _ _, ?_, if_pos rfl⟩
  rintro (hdone | hdone)
  · exact absurd (congrArg List.head? hdone) (by simp [in_braces])
  · exact absurd (congrArg List.head? hdone) (by simp [in_braces])

theorem reads_other {entries t : Text} {value : Json} (h : t.head? ≠ some '\x7b') :
    reads (in_braces entries) value t = none :=
  if_neg fun heq => h (congrArg List.head? heq)

def listing_turn : Turn :=
  ⟨[], "Look.".toList, [⟨"c1".toList, "ls".toList, "[]".toList⟩]⟩

def listing_delta : Delta :=
  ⟨some "r1".toList, none, none, none, some (.plain, "Look.".toList),
    [⟨0, some "c1".toList, some "ls".toList, some "[]".toList⟩], false⟩

def listing_data : Text :=
  in_braces ("\"id\":\"r1\",\"object\":\"chat.completion.chunk\",\"choices\":[\x7b\"index\":0," ++
    "\"delta\":\x7b\"reasoning\":\"Look.\",\"tool_calls\":[\x7b\"index\":0,\"id\":\"c1\"," ++
    "\"type\":\"function\",\"function\":\x7b\"name\":\"ls\",\"arguments\":\"[]\"\x7d\x7d]\x7d," ++
    "\"finish_reason\":\"tool_calls\"\x7d]").toList

theorem listing_is_reported :
    Faithful (reads listing_data (listing_delta.to_json (some "tool_calls".toList)))
      listing_turn [.data listing_data] := by
  refine ((turn_is_reported_iff _).1 listing_turn [listing_delta] (.finish "tool_calls".toList) _
    ⟨rfl, rfl, by decide, by decide, ?_⟩ (.finish (reads_in_braces _ _))).mpr ?_
  · rintro (_ | i) h
    · rfl
    · exact absurd h (by simp [listing_turn])
  · unfold Readable
    dsimp only
    rw [if_neg (by decide), if_pos (by decide)]
    exact ⟨rfl, _, rfl, rfl, rfl, by decide⟩

/-! A chunk with a text and two calls of which the first alone is reported, and a text that is
not JSON with a character across byte 600. -/

def parallel_turn : Turn :=
  ⟨"Both.".toList, [], [⟨"c1".toList, "ls".toList, "[]".toList⟩,
    ⟨"c2".toList, "pwd".toList, "[]".toList⟩]⟩

def parallel_delta : Delta :=
  ⟨some "r1".toList, none, none, some "Both.".toList, none,
    [⟨0, some "c1".toList, some "ls".toList, some "[]".toList⟩,
      ⟨1, some "c2".toList, some "pwd".toList, some "[]".toList⟩], false⟩

def parallel_data : Text :=
  in_braces ("\"id\":\"r1\",\"object\":\"chat.completion.chunk\",\"choices\":[\x7b\"index\":0," ++
    "\"delta\":\x7b\"content\":\"Both.\",\"tool_calls\":[\x7b\"index\":0,\"id\":\"c1\"," ++
    "\"type\":\"function\",\"function\":\x7b\"name\":\"ls\",\"arguments\":\"[]\"\x7d\x7d," ++
    "\x7b\"index\":1,\"id\":\"c2\",\"type\":\"function\",\"function\":\x7b\"name\":\"pwd\"," ++
    "\"arguments\":\"[]\"\x7d\x7d]\x7d,\"finish_reason\":\"tool_calls\"\x7d]").toList

def long_data : Text := 'x' :: List.replicate 200 '€'

theorem long_data_trim : Text.trim long_data = long_data := by
  refine Text.trim_eq_self (by simp [long_data, Text.is_whitespace]) fun c hc => ?_
  rcases List.mem_cons.mp (List.mem_of_getLast? hc) with rfl | hc
  · decide
  · obtain rfl := List.eq_of_mem_replicate hc
    decide

theorem long_data_splits {from_str : Text → Option Json} (h : from_str long_data = none) :
    Splits from_str (.data long_data) := by
  unfold Splits is_done
  dsimp only
  rw [long_data_trim]
  refine ⟨List.cons_ne_nil _ _, ?_, h, by decide +kernel, by decide +kernel⟩
  rintro (hdone | hdone)
  · exact absurd (congrArg List.head? hdone) (by simp [long_data])
  · exact absurd (congrArg List.head? hdone) (by simp [long_data])

theorem parallel_calls_are_lost :
    parallel_turn.CutInto [parallel_delta] ∧
    Encodes (reads parallel_data (parallel_delta.to_json (some "tool_calls".toList)))
      [parallel_delta] (.finish "tool_calls".toList) [.data parallel_data] ∧
    ¬Faithful (reads parallel_data (parallel_delta.to_json (some "tool_calls".toList)))
      parallel_turn [.data parallel_data] ∧
    process_chat_sse (reads parallel_data (parallel_delta.to_json (some "tool_calls".toList)))
      [.data long_data] = none := by
  have hcut : parallel_turn.CutInto [parallel_delta] := by
    refine ⟨rfl, rfl, by decide, by decide, ?_⟩
    rintro (_ | _ | i) h
    · rfl
    · rfl
    · exact absurd h (by simp [parallel_turn])
  have hencodes : Encodes (reads parallel_data (parallel_delta.to_json (some "tool_calls".toList)))
      [parallel_delta] (.finish "tool_calls".toList) [.data parallel_data] :=
    .finish (reads_in_braces _ _)
  refine ⟨hcut, hencodes, ?_, ?_⟩
  · rw [hencodes.faithful_iff_readable hcut]
    unfold Readable
    dsimp only
    rw [if_neg (by decide), if_pos (by decide)]
    rintro ⟨htext, -⟩
    exact absurd htext (by decide)
  · have hsplits : Splits (reads parallel_data
        (parallel_delta.to_json (some "tool_calls".toList))) (.data long_data) :=
      long_data_splits (reads_other (by simp [long_data]))
    unfold process_chat_sse
    rw [process_splits _ hsplits]
    rfl

end Ecode.chat_completions
