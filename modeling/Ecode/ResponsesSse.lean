-- The decoder of the Responses stream (core/src/client.rs): what one frame makes
-- of the loop's variables and what it sends.
import Ecode.ChatSse

namespace Ecode.client

open json truncate

/-! ## What is read -/

/-- The frames that the loop tells apart by their type. -/
inductive SseKind where
  | output_item_done
  | output_text_delta
  | reasoning_summary_text_delta
  | reasoning_text_delta
  | created
  | failed
  | incomplete
  | completed
  | done
  | output_item_added
  | reasoning_summary_part_added
  | other
  deriving DecidableEq, Repr

def SseKind.names : List (Text × SseKind) :=
  [("response.output_item.done".toList, .output_item_done),
    ("response.output_text.delta".toList, .output_text_delta),
    ("response.reasoning_summary_text.delta".toList, .reasoning_summary_text_delta),
    ("response.reasoning_text.delta".toList, .reasoning_text_delta),
    ("response.created".toList, .created),
    ("response.failed".toList, .failed),
    ("response.incomplete".toList, .incomplete),
    ("response.completed".toList, .completed),
    ("response.done".toList, .done),
    ("response.output_item.added".toList, .output_item_added),
    ("response.reasoning_summary_part.added".toList, .reasoning_summary_part_added)]

def SseKind.of (kind : Text) : SseKind := (SseKind.names.lookup kind).getD .other

structure SseEvent where
  kind : Text
  response : Option Json
  item : Option Json
  delta : Option Text
  item_id : Option Text
  sequence_number : Option Nat
  output_index : Option Nat
  content_index : Option Nat
  summary_index : Option Nat

/-- The error of a failed response, without the parameter that it names. -/
structure Error where
  type : Option Text
  code : Option Text
  message : Option Text
  plan_type : Option Text
  resets_in_seconds : Option Nat

def as_u64 : Json → Option Nat
  | .number n => if 0 ≤ n ∧ n < 2 ^ 64 then some n.toNat else none
  | _ => none

def Error.read (value : Json) : Option Error := do
  let names := ["type", "code", "param", "message", "plan_type", "resets_in_seconds"]
  match ← value.as_struct (names.map String.toList) with
  | [type, code, param, message, plan_type, resets_in_seconds] =>
    let type ← Json.optional Json.as_string type
    let code ← Json.optional Json.as_string code
    let _ ← Json.optional Json.as_string param
    let message ← Json.optional Json.as_string message
    let plan_type ← Json.optional Json.as_string plan_type
    let resets_in_seconds ← Json.optional as_u64 resets_in_seconds
    some { type, code, message, plan_type, resets_in_seconds }
  | _ => none

structure ResponseCompleted (U : Type) where
  id : Text
  usage : Option U

/-- The end of a response, with its id read by `read_id`. -/
def ResponseCompleted.read {U : Type} (read_id : Option Json → Option Text)
    (read_usage : Json → Option U) (value : Json) : Option (ResponseCompleted U) := do
  match ← value.as_struct ["id".toList, "usage".toList] with
  | [id, usage] => some ⟨← read_id id, ← Json.optional read_usage usage⟩
  | _ => none

/-! ## What is sent -/

/-- `CodexErr`. A `D` is the time that a failed request waits. -/
inductive CodexErr (D : Type) where
  | Stream (message : Text) (retry_after : Option D) (request_id : Option Text)
  | UsageLimitReached (plan_type : Option Text) (resets_in_seconds : Option Nat)
  | UsageNotIncluded
  | RateLimitExceeded (message : Text) (retry_after : Option D) (request_id : Option Text)
  | QuotaExceeded
  | ServerOverloaded

/-- The two kinds of reasoning. Each numbers its deltas by an index of its own. -/
inductive Reasoning where
  | summary
  | content
  deriving DecidableEq, Repr

/-- The events that `process_sse` sends. A reasoning delta is of one of two kinds. -/
inductive ResponseEvent (β U : Type) where
  | Created (response_id response_model : Option Text)
  | OutputItemDone (item : ResponseItem β) (sequence_number output_index : Option Nat)
  | Completed (response_id : Text) (token_usage : Option U)
  | OutputTextDelta (delta : Text) (item_id : Option Text)
      (sequence_number output_index : Option Nat)
  | ReasoningDelta (kind : Reasoning) (delta : Text) (item_id : Option Text)
      (sequence_number output_index index : Option Nat)
  | ReasoningSummaryPartAdded
  | WebSearchCallBegin (call_id : Text)
  | WebSearchCallCompleted (call_id : Text) (query : Option Text)

/-- The last deltas of one kind of reasoning: the last number by item and indices, which counts as 0
before the first, and the last text that came without a number. -/
structure ReasoningGuard where
  last_seq : Text × Nat × Nat → Nat
  last_text : Text × Nat × Nat → Option Text

/-- The variables of the loop, whether it has returned, and what the receiver got. The receiver may
be dropped once it took a number of events. -/
structure SseState (β D U : Type) where
  current_item_id : Option Text
  reasoning : Reasoning → ReasoningGuard
  global_last_seq : Option Nat
  returned : Bool
  takes : Option Nat
  tx_event : List (Except (CodexErr D) (ResponseEvent β U))

variable {β D U : Type}

namespace ReasoningGuard

def is_duplicate (g : ReasoningGuard) (key : Text × Nat × Nat) (delta : Text) : Option Nat → Bool
  | some sn => decide (sn ≤ g.last_seq key)
  | none => decide (g.last_text key = some delta)

def note (g : ReasoningGuard) (key : Text × Nat × Nat) (delta : Text) :
    Option Nat → ReasoningGuard
  | some sn => { g with last_seq := Function.update g.last_seq key sn }
  | none => { g with last_text := Function.update g.last_text key (some delta) }

end ReasoningGuard

namespace SseState

def init (last_sequence takes : Option Nat) : SseState β D U where
  current_item_id := none
  reasoning _ := ⟨fun _ => 0, fun _ => none⟩
  global_last_seq := last_sequence
  returned := false
  takes := takes
  tx_event := []

/-- A send, and whether there still was a receiver. -/
def send (s : SseState β D U) (event : Except (CodexErr D) (ResponseEvent β U)) :
    SseState β D U × Bool :=
  match s.takes with
  | some 0 => (s, false)
  | takes => ({ s with takes := takes.map Nat.pred, tx_event := s.tx_event ++ [event] }, true)

/-- A send that the loop returns after when there is no receiver. -/
def forward (event : ResponseEvent β U) (s : SseState β D U) : SseState β D U :=
  let (s, sent) := s.send (.ok event)
  { s with returned := !sent }

/-- The last send of the loop. -/
def finish (event : Except (CodexErr D) (ResponseEvent β U)) (s : SseState β D U) :
    SseState β D U :=
  { (s.send event).1 with returned := true }

/-- The item that a frame names is the current one from there on. -/
def see_item (item_id : Option Text) (s : SseState β D U) : SseState β D U :=
  { s with current_item_id := item_id <|> s.current_item_id }

end SseState

/-! ## The frames -/

/-- What the loop reads with: the readers of items and of token usage, the time to wait that an
error gives, and the id of the request. -/
structure SseReader (β D U : Type) where
  read_item : Json → Except Text (ResponseItem β)
  read_usage : Json → Option U
  try_parse_retry_after : Error → Option D
  request_id : Text

def is_web_search_call (item : Json) : Bool :=
  decide ((item.get "type".toList).bind Json.as_string = some "web_search_call".toList)

/-- The id of an item, empty where it has none. -/
def call_id (item : Json) : Text := ((item.get "id".toList).bind Json.as_string).getD []

def search_query (item : Json) : Option Text :=
  ((item.get "action".toList).bind (Json.get "query".toList)).bind Json.as_string

/-- The id of a finished item: that of the JSON, or else of what was read. -/
def done_item_id (item_val : Json) (item : ResponseItem β) : Option Text :=
  ((item_val.get "id".toList).bind Json.as_string) <|>
    match item with
    | .Message id .. | .FunctionCall id .. | .LocalShellCall id .. | .Reasoning id .. => id
    | _ => none

def is_quota_exceeded_error (error : Error) : Bool :=
  decide ((error.code <|> error.type) = some "insufficient_quota".toList)

def is_server_overloaded_error (error : Error) : Bool :=
  decide (error.code = some "server_is_overloaded".toList ∨ error.code = some "slow_down".toList)

def Reasoning.index (kind : Reasoning) (event : SseEvent) : Option Nat :=
  match kind with
  | .summary => event.summary_index
  | .content => event.content_index

namespace SseReader

variable (r : SseReader β D U)

def stream_error (message : Text) : CodexErr D := .Stream message none (some r.request_id)

def response_error (error : Error) : CodexErr D :=
  if error.type = some "usage_limit_reached".toList then
    .UsageLimitReached error.plan_type error.resets_in_seconds
  else if error.type = some "usage_not_included".toList then .UsageNotIncluded
  else if error.code = some "rate_limit_exceeded".toList then
    .RateLimitExceeded (error.message.getD []) (r.try_parse_retry_after error) (some r.request_id)
  else if is_quota_exceeded_error error then .QuotaExceeded
  else if is_server_overloaded_error error then .ServerOverloaded
  else .Stream (error.message.getD []) (r.try_parse_retry_after error) (some r.request_id)

/-- The error of a failed response, where it has one that can be read. -/
def failed_error (resp_val : Json) : CodexErr D :=
  match (resp_val.get "error".toList).bind Error.read with
  | some error => r.response_error error
  | none => r.stream_error "response.failed event received".toList

def incomplete_error (response : Option Json) : CodexErr D :=
  let details := response.bind (Json.get "incomplete_details".toList)
  let reason := (details.bind (Json.get "reason".toList)).bind Json.as_string
  r.stream_error ("Incomplete response returned, reason: ".toList ++ reason.getD "unknown".toList)

def output_item_done (event : SseEvent) (s : SseState β D U) : SseState β D U :=
  match event.item with
  | none => s
  | some item_val =>
    let s := if is_web_search_call item_val then
      s.forward (.WebSearchCallCompleted (call_id item_val) (search_query item_val)) else s
    if s.returned then s
    else
      match r.read_item item_val with
      | .error e => s.finish (.error (r.stream_error
          ("failed to parse response.output_item.done item: ".toList ++ e)))
      | .ok item => (s.see_item (done_item_id item_val item)).forward
          (.OutputItemDone item event.sequence_number event.output_index)

def emit_completed_event (completed : ResponseCompleted U) (s : SseState β D U) : SseState β D U :=
  s.finish (.ok (.Completed completed.id completed.usage))

def completed (event : SseEvent) (s : SseState β D U) : SseState β D U :=
  match event.response with
  | none => s
  | some resp_val =>
    match ResponseCompleted.read (Json.required Json.as_string) r.read_usage resp_val with
    | none => s
    | some completed => emit_completed_event completed s

def done (event : SseEvent) (s : SseState β D U) : SseState β D U :=
  match event.response with
  | none => emit_completed_event ⟨[], none⟩ s
  | some resp_val =>
    let read_id := fun id => (Json.optional Json.as_string id).map fun id => id.getD []
    match ResponseCompleted.read read_id r.read_usage resp_val with
    | none => s
    | some completed => emit_completed_event completed s

def failed (event : SseEvent) (s : SseState β D U) : SseState β D U :=
  match event.response with
  | none => s
  | some resp_val => s.finish (.error (r.failed_error resp_val))

end SseReader

namespace SseState

def output_text_delta (event : SseEvent) (s : SseState β D U) : SseState β D U :=
  match event.delta with
  | none => s
  | some delta =>
    let s := s.see_item event.item_id
    s.forward (.OutputTextDelta delta (event.item_id <|> s.current_item_id) event.sequence_number
      event.output_index)

def reasoning_delta (kind : Reasoning) (event : SseEvent) (s : SseState β D U) : SseState β D U :=
  match event.delta with
  | none => s
  | some delta =>
    let s := s.see_item event.item_id
    let sent := .ReasoningDelta kind delta (event.item_id <|> s.current_item_id)
      event.sequence_number event.output_index (kind.index event)
    match s.current_item_id with
    | none => s.forward sent
    | some id =>
      let key := (id, event.output_index.getD 0, (kind.index event).getD 0)
      let last := s.reasoning kind
      if last.is_duplicate key delta event.sequence_number then s
      else
        let last := last.note key delta event.sequence_number
        let s := { s with reasoning := Function.update s.reasoning kind last }
        s.forward sent

/-- The loop goes on whether or not there is a receiver. -/
def created (event : SseEvent) (s : SseState β D U) : SseState β D U :=
  match event.response with
  | none => s
  | some response => (s.send (.ok (.Created ((response.get "id".toList).bind Json.as_string)
      ((response.get "model".toList).bind Json.as_string)))).1

def output_item_added (event : SseEvent) (s : SseState β D U) : SseState β D U :=
  match event.item with
  | none => s
  | some item =>
    if is_web_search_call item then s.forward (.WebSearchCallBegin (call_id item)) else s

/-- The number of the frame is not above the last one. -/
def is_replayed (s : SseState β D U) (event : SseEvent) : Bool :=
  match event.sequence_number, s.global_last_seq with
  | some seq, some last => decide (seq ≤ last)
  | _, _ => false

/-- The last number, of the loop and of the checkpoint. -/
def note_sequence (event : SseEvent) (s : SseState β D U) : SseState β D U :=
  { s with global_last_seq := event.sequence_number <|> s.global_last_seq }

end SseState

namespace SseReader

variable (r : SseReader β D U)

def handle (event : SseEvent) (s : SseState β D U) : SseState β D U :=
  match SseKind.of event.kind with
  | .output_item_done => r.output_item_done event s
  | .output_text_delta => s.output_text_delta event
  | .reasoning_summary_text_delta => s.reasoning_delta .summary event
  | .reasoning_text_delta => s.reasoning_delta .content event
  | .created => s.created event
  | .failed => r.failed event s
  | .incomplete => s.finish (.error (r.incomplete_error event.response))
  | .completed => r.completed event s
  | .done => r.done event s
  | .output_item_added => s.output_item_added event
  | .reasoning_summary_part_added => s.forward .ReasoningSummaryPartAdded
  | .other => s

def frame (event : SseEvent) (s : SseState β D U) : SseState β D U :=
  if s.is_replayed event then s else r.handle event (s.note_sequence event)

variable (from_str : Text → Option SseEvent)

/-- What comes next on the stream. None stands for the panic of `String::truncate` in a character.
Nothing is read once the loop has returned. -/
def advance (s : SseState β D U) (next : chat_completions.StreamEvent) : Option (SseState β D U) :=
  if s.returned then some s
  else
    match next with
    | .error e => some (s.finish (.error (r.stream_error ("[transport] ".toList ++ e))))
    | .timeout =>
      some (s.finish (.error (r.stream_error "[idle] timeout waiting for SSE".toList)))
    | .data data =>
      match from_str data with
      | none => (chat_completions.excerpt data).map fun _ => s
      | some event => some (r.frame event s)

/-- The stream is closed. A response that was completed or failed has ended the loop before. -/
def close (s : SseState β D U) : SseState β D U :=
  if s.returned then s
  else s.finish (.error (r.stream_error "stream closed before response.completed".toList))

/-- What the receiver gets from `process_sse`, none when it panics. The checkpoint holds
`last_sequence`, and the receiver is dropped once it took `takes` events. -/
def process_sse (last_sequence takes : Option Nat) (stream : List chat_completions.StreamEvent) :
    Option (List (Except (CodexErr D) (ResponseEvent β U))) :=
  (stream.foldlM (r.advance from_str) (.init last_sequence takes)).map fun s =>
    (r.close s).tx_event

end SseReader

end Ecode.client
