-- The history of a conversation (core/src/history/state.rs): its records, the
-- maps that find a record by its id, its call or its stream, and the count of
-- the bytes that the streams of commands keep in memory.
import Ecode.ExecStreams
import Ecode.Paths
import Ecode.Registry
import Ecode.Runs

namespace Ecode.history

open registry

/-! ## The records -/

inductive ExecAction where
  | Read
  | Search
  | List
  | Run
  deriving DecidableEq, Repr

inductive ExecStatus where
  | Running
  | Success
  | Error
  deriving DecidableEq, Repr

-- `β` stands for the data that the history only carries: parsed commands, notes,
-- token counts and the bodies of the records it does not look into.
structure MessageMetadata (β : Type) where
  citations : List Text
  token_usage : Option β

structure ExecRecord (β : Type) where
  id : Nat
  call_id : Option Text
  command : List Text
  parsed : List β
  action : ExecAction
  status : ExecStatus
  stdout_chunks : List ExecStreamChunk
  stderr_chunks : List ExecStreamChunk
  exit_code : Option Int
  wait_total : Option Nat
  wait_active : Bool
  wait_notes : List β
  started_at : Nat
  completed_at : Option Nat
  working_dir : Option Path
  env : List (Text × Text)
  tags : List Text

structure MergedExecRecord (β : Type) where
  id : Nat
  action : ExecAction
  segments : List (ExecRecord β)

structure AssistantStreamDelta where
  delta : Text
  sequence : Option Nat
  received_at : Nat

structure AssistantStreamState (β : Type) where
  id : Nat
  stream_id : Text
  preview_markdown : Text
  deltas : List AssistantStreamDelta
  citations : List Text
  metadata : Option (MessageMetadata β)
  in_progress : Bool
  last_updated_at : Nat
  truncated_prefix_bytes : Nat

structure AssistantMessageState (β : Type) where
  id : Nat
  stream_id : Option Text
  markdown : Text
  citations : List Text
  metadata : Option (MessageMetadata β)
  token_usage : Option β
  mid_turn : Bool
  created_at : Nat

/-- `RunningToolState` and `ToolCallState`, with the fields that are only carried in one. -/
structure ToolState (β : Type) where
  id : Nat
  call_id : Option Text
  body : β

/-- The kinds of records that have an id and no call or stream. -/
inductive OtherKind where
  | PlainMessage
  | WaitStatus
  | Loading
  | PlanUpdate
  | UpgradeNotice
  | Reasoning
  | Diff
  | Image
  | Explore
  | RateLimits
  | Patch
  | BackgroundEvent
  | Notice
  | Context
  deriving DecidableEq, Repr

/-- `HistoryRecord`, and `HistoryDomainRecord` with the same kinds. -/
inductive HistoryRecord (β : Type) where
  | RunningTool (state : ToolState β)
  | ToolCall (state : ToolState β)
  | Exec (state : ExecRecord β)
  | MergedExec (state : MergedExecRecord β)
  | AssistantStream (state : AssistantStreamState β)
  | AssistantMessage (state : AssistantMessageState β)
  | Other (kind : OtherKind) (id : Nat) (body : β)

variable {β : Type}

def HistoryRecord.id : HistoryRecord β → Nat
  | .RunningTool state => state.id
  | .ToolCall state => state.id
  | .Exec state => state.id
  | .MergedExec state => state.id
  | .AssistantStream state => state.id
  | .AssistantMessage state => state.id
  | .Other _ id _ => id

def HistoryRecord.with_id (id : Nat) : HistoryRecord β → HistoryRecord β
  | .RunningTool state => .RunningTool { state with id }
  | .ToolCall state => .ToolCall { state with id }
  | .Exec state => .Exec { state with id }
  | .MergedExec state => .MergedExec { state with id }
  | .AssistantStream state => .AssistantStream { state with id }
  | .AssistantMessage state => .AssistantMessage { state with id }
  | .Other kind _ body => .Other kind id body

/-- `HistoryDomainRecord::into_history_record`. -/
def HistoryRecord.into_history_record (r : HistoryRecord β) : HistoryRecord β := r.with_id 0

def retained_exec_record_bytes (record : ExecRecord β) : Nat :=
  saturating_add (retained_stream_len record.stdout_chunks)
    (retained_stream_len record.stderr_chunks)

/-! ## The deltas of an assistant stream -/

def MAX_ASSISTANT_STREAM_RETAINED_BYTES : Nat := 6 * 1024 * 1024

/-- The bytes up to the first character boundary from `n` on, and the text after them. -/
def drain_to_boundary : Nat → Text → Nat × Text
  | 0, t => (0, t)
  | _ + 1, [] => (0, [])
  | n + 1, c :: t =>
    let (dropped, rest) := drain_to_boundary (n + 1 - c.utf8Size) t
    (c.utf8Size + dropped, rest)

/-- The loop of `prune_assistant_stream`: the deltas that stay and the bytes that go. -/
def prune_deltas (max_bytes : Nat) : List AssistantStreamDelta → Nat →
    List AssistantStreamDelta × Nat
  | [], _ => ([], 0)
  | first :: rest, total =>
    let first_len := Text.len first.delta
    if total ≤ max_bytes then (first :: rest, 0)
    else if total - first_len ≥ max_bytes then
      let (deltas, truncated) := prune_deltas max_bytes rest (total - first_len)
      (deltas, saturating_add first_len truncated)
    else
      let (drain, delta) := drain_to_boundary (total - max_bytes) first.delta
      if drain ≥ first_len then
        let (deltas, truncated) := prune_deltas max_bytes rest (total - first_len)
        (deltas, saturating_add first_len truncated)
      else ({ first with delta } :: rest, drain)

def prune_assistant_stream (deltas : List AssistantStreamDelta) (max_bytes : Nat) :
    List AssistantStreamDelta × Nat :=
  let total := (deltas.map fun d => Text.len d.delta).sum
  if max_bytes = 0 then ([], total) else prune_deltas max_bytes deltas total

/-- `append_assistant_delta`: a delta of the same sequence, or of none as the last one, joins
the last one. -/
def append_assistant_delta (deltas : List AssistantStreamDelta) (delta : AssistantStreamDelta) :
    List AssistantStreamDelta × Nat :=
  let joined :=
    match deltas.getLast? with
    | some last =>
      if delta.sequence = last.sequence then
        deltas.dropLast ++ [{ last with delta := last.delta ++ delta.delta }]
      else deltas ++ [delta]
    | none => deltas ++ [delta]
  prune_assistant_stream joined MAX_ASSISTANT_STREAM_RETAINED_BYTES

/-! ## The state and its maps -/

structure HistoryState (β : Type) where
  records : List (HistoryRecord β)
  next_id : Nat
  exec_call_lookup : Lookup Text Nat
  tool_call_lookup : Lookup Text Nat
  stream_lookup : Lookup Text Nat
  id_index : Lookup Nat Nat
  exec_stream_retained_total_bytes : Nat
  exec_stream_retained_by_id : Lookup Nat Nat

structure HistorySnapshot (β : Type) where
  records : List (HistoryRecord β)
  next_id : Nat
  exec_call_lookup : Lookup Text Nat
  tool_call_lookup : Lookup Text Nat
  stream_lookup : Lookup Text Nat

def HistoryState.new : HistoryState β := ⟨[], 1, ∅, ∅, ∅, ∅, 0, ∅⟩

namespace HistoryState

def set_exec_stream_retained (s : HistoryState β) (id retained : Nat) : HistoryState β :=
  if id = 0 then s
  else
    let prev := (s.exec_stream_retained_by_id.lookup id).getD 0
    let total := s.exec_stream_retained_total_bytes
    { s with
      exec_stream_retained_by_id := s.exec_stream_retained_by_id.insert id retained
      exec_stream_retained_total_bytes :=
        if retained > prev then saturating_add total (retained - prev)
        else total - (prev - retained) }

def remove_exec_stream_retained (s : HistoryState β) (id : Nat) : HistoryState β :=
  if id = 0 then s
  else match s.exec_stream_retained_by_id.lookup id with
    | some prev =>
      { s with
        exec_stream_retained_by_id := s.exec_stream_retained_by_id.erase id
        exec_stream_retained_total_bytes := s.exec_stream_retained_total_bytes - prev }
    | none => s

def register_record (s : HistoryState β) : HistoryRecord β → HistoryState β
  | .Exec state =>
    set_exec_stream_retained
      { s with exec_call_lookup := enroll s.exec_call_lookup state.id state.call_id.toList }
      state.id (retained_exec_record_bytes state)
  | .MergedExec state =>
    { s with exec_call_lookup :=
        enroll s.exec_call_lookup state.id (state.segments.filterMap ExecRecord.call_id) }
  | .RunningTool state | .ToolCall state =>
    { s with tool_call_lookup := enroll s.tool_call_lookup state.id state.call_id.toList }
  | .AssistantStream state =>
    { s with stream_lookup := enroll s.stream_lookup state.id [state.stream_id] }
  | .AssistantMessage _ | .Other .. => s

def unregister_record (s : HistoryState β) : HistoryRecord β → HistoryState β
  | .Exec state =>
    remove_exec_stream_retained
      { s with exec_call_lookup := withdraw s.exec_call_lookup state.id state.call_id.toList }
      state.id
  | .MergedExec state =>
    { s with exec_call_lookup :=
        withdraw s.exec_call_lookup state.id (state.segments.filterMap ExecRecord.call_id) }
  | .RunningTool state | .ToolCall state =>
    { s with tool_call_lookup := withdraw s.tool_call_lookup state.id state.call_id.toList }
  | .AssistantStream state =>
    { s with stream_lookup := withdraw s.stream_lookup state.id [state.stream_id] }
  | .AssistantMessage _ | .Other .. => s

def rebuild_id_index (s : HistoryState β) : HistoryState β :=
  { s with id_index := positions (· ≠ 0) (s.records.map HistoryRecord.id) }

/-- `next_history_id`: the id, and the state with the next one. -/
def next_history_id (s : HistoryState β) : Nat × HistoryState β :=
  (s.next_id, { s with next_id := saturating_add s.next_id 1 })

def recompute_next_id (s : HistoryState β) : HistoryState β :=
  { s with next_id := saturating_add ((s.records.map HistoryRecord.id).foldr max 0) 1 }

def index_of (s : HistoryState β) (id : Nat) : Option Nat :=
  if id = 0 then none else s.id_index.lookup id

def history_id_for_exec_call (s : HistoryState β) (call_id : Text) : Option Nat :=
  s.exec_call_lookup.lookup call_id

end HistoryState

/-! ## The events -/

inductive HistoryEvent (β : Type) where
  | Insert (index : Nat) (record : HistoryRecord β)
  | Replace (index : Nat) (record : HistoryRecord β)
  | Remove (index : Nat)

inductive HistoryMutation (β : Type) where
  | Inserted (index id : Nat) (record : HistoryRecord β)
  | Replaced (index id : Nat) (record : HistoryRecord β)
  | Removed (index id : Nat) (record : HistoryRecord β)
  | Noop

inductive HistoryDomainEvent (β : Type) where
  | Insert (index : Nat) (record : HistoryRecord β)
  | Replace (index : Nat) (record : HistoryRecord β)
  | Remove (index : Nat)
  | UpdateExecStream (index : Nat) (stdout_chunk stderr_chunk : Option ExecStreamChunk)
  | UpsertAssistantStream (stream_id preview_markdown : Text) (delta : Option AssistantStreamDelta)
      (metadata : Option (MessageMetadata β))
  | UpdateExecWait (index : Nat) (total_wait : Option Nat) (wait_active : Bool) (notes : List β)
  | StartExec (index : Nat) (call_id : Option Text) (command : List Text) (parsed : List β)
      (action : ExecAction) (started_at : Nat) (working_dir : Option Path)
      (env : List (Text × Text)) (tags : List Text)
  | FinishExec (id : Option Nat) (call_id : Option Text) (status : ExecStatus)
      (exit_code : Option Int) (completed_at : Option Nat) (stdout_tail stderr_tail : Option Text)
      (wait_total : Option Nat) (wait_active : Bool) (wait_notes : List β)

namespace HistoryState

/-- `HistoryEvent::Insert`. -/
def insert_event (s : HistoryState β) (index : Nat) (record : HistoryRecord β) :
    HistoryState β × HistoryMutation β :=
  let (id, s) := s.next_history_id
  let record := record.with_id id
  let idx := min index s.records.length
  let s := ({ s with records := s.records.insertIdx idx record } : HistoryState β)
  ((s.register_record record).rebuild_id_index, .Inserted idx id record)

/-- `HistoryEvent::Replace`. -/
def replace_event (s : HistoryState β) (index : Nat) (record : HistoryRecord β) :
    HistoryState β × HistoryMutation β :=
  match s.records[index]? with
  | some existing =>
    let id := existing.id
    let record := record.with_id id
    let s := s.unregister_record existing
    let s := ({ s with records := s.records.set index record } : HistoryState β)
    ((s.register_record record).rebuild_id_index, .Replaced index id record)
  | none => (s, .Noop)

/-- `HistoryEvent::Remove`. -/
def remove_event (s : HistoryState β) (index : Nat) : HistoryState β × HistoryMutation β :=
  match s.records[index]? with
  | some record =>
    let s := ({ s with records := s.records.eraseIdx index } : HistoryState β)
    ((s.unregister_record record).rebuild_id_index, .Removed index record.id record)
  | none => (s, .Noop)

def apply_event (s : HistoryState β) : HistoryEvent β → HistoryState β × HistoryMutation β
  | .Insert index record => s.insert_event index record
  | .Replace index record => s.replace_event index record
  | .Remove index => s.remove_event index

def push (s : HistoryState β) (record : HistoryRecord β) : HistoryState β × Nat :=
  let (id, s) := s.next_history_id
  let record := record.with_id id
  let s := s.register_record record
  (({ s with records := s.records ++ [record] } : HistoryState β).rebuild_id_index, id)

/-- `HistoryState::insert`. `Vec::insert` panics past the end. -/
def insert (s : HistoryState β) (index : Nat) (record : HistoryRecord β) :
    Option (HistoryState β × Nat) :=
  let (id, s) := s.next_history_id
  let record := record.with_id id
  let s := s.register_record record
  if index ≤ s.records.length then
    some (({ s with records := s.records.insertIdx index record } : HistoryState β).rebuild_id_index,
      id)
  else none

def remove (s : HistoryState β) (index : Nat) : HistoryState β × Option (HistoryRecord β) :=
  match s.records[index]? with
  | some record =>
    let s := ({ s with records := s.records.eraseIdx index } : HistoryState β)
    ((s.unregister_record record).rebuild_id_index, some record)
  | none => (s, none)

/-! ## The streams of the assistant -/

def is_stream (stream_id : Text) : HistoryRecord β → Bool
  | .AssistantStream state => state.stream_id = stream_id
  | _ => false

def is_message (stream_id : Text) : HistoryRecord β → Bool
  | .AssistantMessage state => state.stream_id = some stream_id
  | _ => false

/-- The removal of the stream that a final message ends: the state, and the citations and the
metadata that the stream carried. -/
def take_stream (s : HistoryState β) (stream_id : Option Text) :
    HistoryState β × List Text × Option (MessageMetadata β) :=
  match stream_id.bind fun stream_id => s.records.findIdx? (is_stream stream_id) with
  | some idx =>
    match s.remove idx with
    | (s, some (.AssistantStream state)) => (s, state.citations, state.metadata)
    | (s, _) => (s, [], none)
  | none => (s, [], none)

/-- `Iterator::rposition`. -/
def rposition (p : HistoryRecord β → Bool) (records : List (HistoryRecord β)) : Option Nat :=
  (records.reverse.findIdx? p).map fun i => records.length - 1 - i

/-- The message of the stream that is there already, with its position. -/
def existing_message (s : HistoryState β) (stream_id : Option Text) :
    Option (Nat × AssistantMessageState β) :=
  match stream_id.bind fun stream_id => rposition (is_message stream_id) s.records with
  | some idx =>
    match s.records[idx]? with
    | some (.AssistantMessage existing) => some (idx, existing)
    | _ => none
  | none => none

def finalize_assistant_stream_state (now : Nat) (s : HistoryState β) (stream_id : Option Text)
    (markdown : Text) (metadata : Option (MessageMetadata β)) (token_usage : Option β) :
    HistoryState β × AssistantMessageState β :=
  let (s, carried_citations, carried_metadata) := s.take_stream stream_id
  let citations := (metadata.map MessageMetadata.citations).getD carried_citations
  let metadata := metadata <|> carried_metadata
  let token_usage := token_usage <|> metadata.bind MessageMetadata.token_usage
  match s.existing_message stream_id with
  | some (idx, existing) =>
    let updated : AssistantMessageState β :=
      { existing with markdown, citations, metadata, token_usage, created_at := now }
    ({ s with records := s.records.set idx (.AssistantMessage updated) }, updated)
  | none =>
    let (id, s) := s.next_history_id
    let state : AssistantMessageState β :=
      ⟨id, stream_id, markdown, citations, metadata, token_usage, false, now⟩
    (({ s with records := s.records ++ [.AssistantMessage state] } :
      HistoryState β).rebuild_id_index, state)

/-- The stream with one more delta. -/
def updated_stream (now : Nat) (existing : AssistantStreamState β) (preview_markdown : Text)
    (delta : Option AssistantStreamDelta) (metadata : Option (MessageMetadata β)) :
    AssistantStreamState β :=
  let appended : AssistantStreamState β :=
    match delta with
    | some delta =>
      let (deltas, truncated) := append_assistant_delta existing.deltas delta
      { existing with
        deltas
        truncated_prefix_bytes := saturating_add existing.truncated_prefix_bytes truncated }
    | none => existing
  let described : AssistantStreamState β :=
    match metadata with
    | some data => { appended with citations := data.citations, metadata := some data }
    | none => appended
  { described with preview_markdown, in_progress := true, last_updated_at := now }

/-- A stream that starts. -/
def new_stream (now : Nat) (stream_id preview_markdown : Text)
    (delta : Option AssistantStreamDelta) (metadata : Option (MessageMetadata β)) :
    AssistantStreamState β :=
  let (deltas, truncated_prefix_bytes) :=
    match delta with
    | some delta => append_assistant_delta [] delta
    | none => ([], 0)
  { id := 0, stream_id, preview_markdown, deltas
    citations := (metadata.map MessageMetadata.citations).getD []
    metadata, in_progress := true, last_updated_at := now, truncated_prefix_bytes }

/-- `HistoryDomainEvent::UpsertAssistantStream`. -/
def upsert_assistant_stream (now : Nat) (s : HistoryState β) (stream_id preview_markdown : Text)
    (delta : Option AssistantStreamDelta) (metadata : Option (MessageMetadata β)) :
    HistoryState β × HistoryMutation β :=
  let fresh := s.insert_event s.records.length
    (.AssistantStream (new_stream now stream_id preview_markdown delta metadata))
  match s.records.findIdx? (is_stream stream_id) with
  | some idx =>
    match s.records[idx]? with
    | some (.AssistantStream existing) =>
      s.replace_event idx
        (.AssistantStream (updated_stream now existing preview_markdown delta metadata))
    | _ => fresh
  | none => fresh

/-! ## The streams of commands -/

def GLOBAL_EXEC_STREAM_RETAINED_BYTES : Nat := 256 * 1024 * 1024

def EXEC_STREAM_PRUNE_TARGET_BYTES : Nat := 512 * 1024

/-- The loop of `enforce_exec_stream_global_limit` over the records, with the bytes to drop, the
map and the total. -/
def enforce_records (bytes_to_drop : Nat) (by_id : Lookup Nat Nat) (total : Nat) :
    List (HistoryRecord β) → Option (List (HistoryRecord β) × Lookup Nat Nat × Nat)
  | [] => some ([], by_id, total)
  | .Exec exec :: records =>
    if bytes_to_drop = 0 then some (.Exec exec :: records, by_id, total)
    else
      let before := (by_id.lookup exec.id).getD (retained_exec_record_bytes exec)
      if before = 0 then do
        let (records, by_id, total) ← enforce_records bytes_to_drop by_id total records
        some (.Exec exec :: records, by_id, total)
      else do
        let stdout_chunks ← prune_exec_stream exec.stdout_chunks EXEC_STREAM_PRUNE_TARGET_BYTES
        let stderr_chunks ← prune_exec_stream exec.stderr_chunks EXEC_STREAM_PRUNE_TARGET_BYTES
        let exec : ExecRecord β := { exec with stdout_chunks, stderr_chunks }
        let after := retained_exec_record_bytes exec
        let prev := (by_id.lookup exec.id).getD 0
        let total :=
          if after > prev then saturating_add total (after - prev) else total - (prev - after)
        let (records, by_id, total) ←
          enforce_records (bytes_to_drop - (before - after)) (by_id.insert exec.id after) total
            records
        some (.Exec exec :: records, by_id, total)
  | record :: records => do
    let (records, by_id, total) ← enforce_records bytes_to_drop by_id total records
    some (record :: records, by_id, total)

def enforce_exec_stream_global_limit (s : HistoryState β) : Option (HistoryState β) :=
  if s.exec_stream_retained_total_bytes ≤ GLOBAL_EXEC_STREAM_RETAINED_BYTES then some s
  else do
    let (records, by_id, total) ← enforce_records
      (s.exec_stream_retained_total_bytes - GLOBAL_EXEC_STREAM_RETAINED_BYTES)
      s.exec_stream_retained_by_id s.exec_stream_retained_total_bytes s.records
    some { s with
      records, exec_stream_retained_by_id := by_id, exec_stream_retained_total_bytes := total }

/-- The chunks of one stream with the new one, if there is one. -/
def append_optional (chunks : List ExecStreamChunk) (chunk : Option ExecStreamChunk) :
    Option (List ExecStreamChunk) :=
  match chunk with
  | some chunk => append_exec_chunk chunks chunk
  | none => some chunks

/-- The chunk of the last output of a command, at the end of the stream. -/
def tail_chunk (chunks : List ExecStreamChunk) (tail : Option Text) : Option ExecStreamChunk :=
  match tail with
  | some tail => if tail = [] then none else some ⟨stream_len chunks, tail⟩
  | none => none

/-- A record with more output. -/
def append_output (exec : ExecRecord β) (stdout_chunk stderr_chunk : Option ExecStreamChunk) :
    Option (ExecRecord β) := do
  let stdout_chunks ← append_optional exec.stdout_chunks stdout_chunk
  let stderr_chunks ← append_optional exec.stderr_chunks stderr_chunk
  some { exec with stdout_chunks, stderr_chunks }

/-- The mutation after the streams of a record changed. -/
def replaced_at (s : HistoryState β) (index id : Nat) : HistoryState β × HistoryMutation β :=
  match s.records[index]? with
  | some record => (s, .Replaced index id record)
  | none => (s, .Noop)

/-- `HistoryDomainEvent::UpdateExecStream`. -/
def update_exec_stream (s : HistoryState β) (index : Nat)
    (stdout_chunk stderr_chunk : Option ExecStreamChunk) :
    Option (HistoryState β × HistoryMutation β) :=
  match s.records[index]? with
  | some (.Exec existing) => do
    let updated ← append_output existing stdout_chunk stderr_chunk
    let s := ({ s with records := s.records.set index (.Exec updated) } : HistoryState β)
    let s := s.set_exec_stream_retained updated.id (retained_exec_record_bytes updated)
    let s ← s.enforce_exec_stream_global_limit
    some (s.replaced_at index updated.id)
  | _ => some (s, .Noop)

/-- The position of the record that `FinishExec` ends. -/
def finish_target (s : HistoryState β) (id : Option Nat) (call_id : Option Text) : Option Nat :=
  (id.bind s.index_of) <|> ((call_id.bind s.history_id_for_exec_call).bind s.index_of)

/-- `HistoryDomainEvent::FinishExec`, with the fields that it sets on the record. -/
def finish_exec (s : HistoryState β) (id : Option Nat) (call_id : Option Text)
    (set_fields : ExecRecord β → ExecRecord β) (stdout_tail stderr_tail : Option Text) :
    Option (HistoryState β × HistoryMutation β) :=
  match s.finish_target id call_id with
  | some idx =>
    match s.records[idx]? with
    | some (.Exec existing) => do
      let updated ← append_output (set_fields existing)
        (tail_chunk existing.stdout_chunks stdout_tail)
        (tail_chunk existing.stderr_chunks stderr_tail)
      match s.replace_event idx (.Exec updated) with
      | (s, .Noop) => some (s, .Noop)
      | (s, _) => do
        let s ← s.enforce_exec_stream_global_limit
        some (s.replaced_at idx updated.id)
    | _ => some (s, .Noop)
  | none => some (s, .Noop)

def apply_domain_event (now : Nat) (s : HistoryState β) :
    HistoryDomainEvent β → Option (HistoryState β × HistoryMutation β)
  | .Insert index record => some (s.apply_event (.Insert index record.into_history_record))
  | .Replace index record => some (s.apply_event (.Replace index record.into_history_record))
  | .Remove index => some (s.apply_event (.Remove index))
  | .UpdateExecStream index stdout_chunk stderr_chunk =>
    s.update_exec_stream index stdout_chunk stderr_chunk
  | .UpsertAssistantStream stream_id preview_markdown delta metadata =>
    some (s.upsert_assistant_stream now stream_id preview_markdown delta metadata)
  | .UpdateExecWait index total_wait wait_active notes =>
    match s.records[index]? with
    | some (.Exec existing) =>
      some (s.apply_event (.Replace index (.Exec
        { existing with wait_total := total_wait, wait_active, wait_notes := notes })))
    | _ => some (s, .Noop)
  | .StartExec index call_id command parsed action started_at working_dir env tags =>
    some (s.apply_event (.Insert (min index s.records.length) (.Exec
      { id := 0, call_id, command, parsed, action, status := .Running, stdout_chunks := []
        stderr_chunks := [], exit_code := none, wait_total := none, wait_active := false
        wait_notes := [], started_at, completed_at := none, working_dir, env, tags })))
  | .FinishExec id call_id status exit_code completed_at stdout_tail stderr_tail wait_total
      wait_active wait_notes =>
    s.finish_exec id call_id
      (fun existing =>
        { existing with status, exit_code, completed_at, wait_total, wait_active, wait_notes })
      stdout_tail stderr_tail

/-! ## Snapshots and truncation -/

def snapshot (s : HistoryState β) : HistorySnapshot β :=
  ⟨s.records, s.next_id, s.exec_call_lookup, s.tool_call_lookup, s.stream_lookup⟩

/-- `records.retain(..)` of `restore`: of the messages of one stream only the first stays. -/
def dedup_messages (seen_streams : List Text) : List (HistoryRecord β) → List (HistoryRecord β)
  | [] => []
  | .AssistantMessage state :: records =>
    match state.stream_id with
    | some stream_id =>
      if stream_id ∈ seen_streams then dedup_messages seen_streams records
      else .AssistantMessage state :: dedup_messages (stream_id :: seen_streams) records
    | none => .AssistantMessage state :: dedup_messages seen_streams records
  | record :: records => record :: dedup_messages seen_streams records

def rebuild_lookup_maps (s : HistoryState β) : HistoryState β :=
  s.records.foldl register_record
    { s with exec_call_lookup := ∅, tool_call_lookup := ∅, stream_lookup := ∅ }

def rebuild_exec_stream_retained_totals (s : HistoryState β) : HistoryState β :=
  let (total, by_id) := s.records.foldl (fun (acc : Nat × Lookup Nat Nat) record =>
    match record with
    | .Exec exec =>
      if exec.id = 0 then acc
      else (saturating_add acc.1 (retained_exec_record_bytes exec),
        acc.2.insert exec.id (retained_exec_record_bytes exec))
    | _ => acc) (0, ∅)
  { s with exec_stream_retained_total_bytes := total, exec_stream_retained_by_id := by_id }

def restore (s : HistoryState β) (snapshot : HistorySnapshot β) : HistoryState β :=
  let s : HistoryState β :=
    { s with
      records := dedup_messages [] snapshot.records
      next_id := snapshot.next_id
      exec_call_lookup := snapshot.exec_call_lookup
      tool_call_lookup := snapshot.tool_call_lookup
      stream_lookup := snapshot.stream_lookup }
  let s :=
    if s.exec_call_lookup = ∅ ∧ s.tool_call_lookup = ∅ ∧ s.stream_lookup = ∅ then
      s.rebuild_lookup_maps
    else s
  s.rebuild_id_index.rebuild_exec_stream_retained_totals

def truncate_after (s : HistoryState β) (id : Nat) : HistoryState β × List (HistoryRecord β) :=
  if id = 0 then
    ({ s with
        records := [], exec_call_lookup := ∅, tool_call_lookup := ∅, stream_lookup := ∅
        next_id := 1, exec_stream_retained_total_bytes := 0, exec_stream_retained_by_id := ∅ },
      s.records)
  else match s.records.findIdx? (fun record => record.id = id) with
    | none => (s, [])
    | some pos =>
      if pos + 1 ≥ s.records.length then (s, [])
      else
        let removed := s.records.drop (pos + 1)
        let s := ({ s with records := s.records.take (pos + 1) } : HistoryState β)
        ((removed.foldl unregister_record s).recompute_next_id.rebuild_id_index, removed)

end HistoryState

/-! ## The operations -/

/-- The operations of a history. `now` is the time that the system clock gives. -/
inductive Op (β : Type) where
  | push (record : HistoryRecord β)
  | insert (index : Nat) (record : HistoryRecord β)
  | remove (index : Nat)
  | upsert_assistant_stream_state (now : Nat) (stream_id preview_markdown : Text)
      (delta : Option AssistantStreamDelta) (metadata : Option (MessageMetadata β))
  | finalize_assistant_stream_state (now : Nat) (stream_id : Option Text) (markdown : Text)
      (metadata : Option (MessageMetadata β)) (token_usage : Option β)
  | restore (snapshot : HistorySnapshot β)
  | truncate_after (id : Nat)
  | apply_event (event : HistoryEvent β)
  | apply_domain_event (now : Nat) (event : HistoryDomainEvent β)

/-- The state after an operation. There is none when it panics. -/
def step (s : HistoryState β) : Op β → Option (HistoryState β)
  | .push record => some (s.push record).1
  | .insert index record => (s.insert index record).map Prod.fst
  | .remove index => some (s.remove index).1
  | .upsert_assistant_stream_state now stream_id preview_markdown delta metadata =>
    (s.apply_domain_event now
      (.UpsertAssistantStream stream_id preview_markdown delta metadata)).map Prod.fst
  | .finalize_assistant_stream_state now stream_id markdown metadata token_usage =>
    some (s.finalize_assistant_stream_state now stream_id markdown metadata token_usage).1
  | .restore snapshot => some (s.restore snapshot)
  | .truncate_after id => some (s.truncate_after id).1
  | .apply_event event => some (s.apply_event event).1
  | .apply_domain_event now event => (s.apply_domain_event now event).map Prod.fst

end Ecode.history
