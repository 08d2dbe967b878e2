-- What an operation of the history can do: a few moves, one after another. The
-- invariants of the history are proved for the moves and hold for the operations.
import Ecode.HistoryState

namespace Ecode.history

open registry runs HistoryState

variable {β : Type}

/-! ## The moves -/

inductive Move (β : Type) where
  | insert (index : Nat) (record : HistoryRecord β)
  | replace (index : Nat) (record : HistoryRecord β)
  | remove (index : Nat)
  /-- A message is written over in its place. -/
  | refresh (index : Nat) (message : AssistantMessageState β)
  /-- A command gets more output in its place. -/
  | output (index : Nat) (exec : ExecRecord β)
  | enforce
  | truncate (id : Nat)
  | restore (snapshot : HistorySnapshot β)

def make (s : HistoryState β) : Move β → Option (HistoryState β)
  | .insert index record => some (s.insert_event index record).1
  | .replace index record => some (s.replace_event index record).1
  | .remove index => some (s.remove_event index).1
  | .refresh index message =>
    some { s with records := s.records.set index (.AssistantMessage message) }
  | .output index exec =>
    some (({ s with records := s.records.set index (.Exec exec) } :
      HistoryState β).set_exec_stream_retained exec.id (retained_exec_record_bytes exec))
  | .enforce => s.enforce_exec_stream_global_limit
  | .truncate id => some (s.truncate_after id).1
  | .restore snapshot => some (s.restore snapshot)

/-- The move of `UpsertAssistantStream`. -/
def upsert_move (now : Nat) (s : HistoryState β) (stream_id preview_markdown : Text)
    (delta : Option AssistantStreamDelta) (metadata : Option (MessageMetadata β)) : Move β :=
  let fresh : Move β := .insert s.records.length
    (.AssistantStream (new_stream now stream_id preview_markdown delta metadata))
  match s.records.findIdx? (is_stream stream_id) with
  | some idx =>
    match s.records[idx]? with
    | some (.AssistantStream existing) => .replace idx
        (.AssistantStream (updated_stream now existing preview_markdown delta metadata))
    | _ => fresh
  | none => fresh

/-- The first moves of `finalize_assistant_stream_state`: the stream is removed. -/
def take_moves (s : HistoryState β) (stream_id : Option Text) : List (Move β) :=
  match stream_id.bind fun stream_id => s.records.findIdx? (is_stream stream_id) with
  | some idx => [.remove idx]
  | none => []

/-- The last move of `finalize_assistant_stream_state`: the message is refreshed or added. -/
def message_move (now : Nat) (s : HistoryState β) (stream_id : Option Text) (markdown : Text)
    (metadata : Option (MessageMetadata β)) (token_usage : Option β) : Move β :=
  let (s, carried_citations, carried_metadata) := s.take_stream stream_id
  let citations := (metadata.map MessageMetadata.citations).getD carried_citations
  let metadata := metadata <|> carried_metadata
  let token_usage := token_usage <|> metadata.bind MessageMetadata.token_usage
  match s.existing_message stream_id with
  | some (idx, existing) => .refresh idx
      { existing with markdown, citations, metadata, token_usage, created_at := now }
  | none => .insert s.records.length (.AssistantMessage
      ⟨s.next_id, stream_id, markdown, citations, metadata, token_usage, false, now⟩)

def finish_moves (s : HistoryState β) (id : Option Nat) (call_id : Option Text)
    (set_fields : ExecRecord β → ExecRecord β) (stdout_tail stderr_tail : Option Text) :
    Option (List (Move β)) :=
  match s.finish_target id call_id with
  | some idx =>
    match s.records[idx]? with
    | some (.Exec existing) =>
      (append_output (set_fields existing) (tail_chunk existing.stdout_chunks stdout_tail)
        (tail_chunk existing.stderr_chunks stderr_tail)).map fun updated =>
          [.replace idx (.Exec updated), .enforce]
    | _ => some []
  | none => some []

def domain_moves (now : Nat) (s : HistoryState β) : HistoryDomainEvent β → Option (List (Move β))
  | .Insert index record => some [.insert index record.into_history_record]
  | .Replace index record => some [.replace index record.into_history_record]
  | .Remove index => some [.remove index]
  | .UpdateExecStream index stdout_chunk stderr_chunk =>
    match s.records[index]? with
    | some (.Exec existing) =>
      (append_output existing stdout_chunk stderr_chunk).map fun updated =>
        [.output index updated, .enforce]
    | _ => some []
  | .UpsertAssistantStream stream_id preview_markdown delta metadata =>
    some [upsert_move now s stream_id preview_markdown delta metadata]
  | .UpdateExecWait index total_wait wait_active notes =>
    match s.records[index]? with
    | some (.Exec existing) => some [.replace index (.Exec
        { existing with wait_total := total_wait, wait_active, wait_notes := notes })]
    | _ => some []
  | .StartExec index call_id command parsed action started_at working_dir env tags =>
    some [.insert (min index s.records.length) (.Exec
      { id := 0, call_id, command, parsed, action, status := .Running, stdout_chunks := []
        stderr_chunks := [], exit_code := none, wait_total := none, wait_active := false
        wait_notes := [], started_at, completed_at := none, working_dir, env, tags })]
  | .FinishExec id call_id status exit_code completed_at stdout_tail stderr_tail wait_total
      wait_active wait_notes =>
    finish_moves s id call_id
      (fun existing =>
        { existing with status, exit_code, completed_at, wait_total, wait_active, wait_notes })
      stdout_tail stderr_tail

/-- The moves of an operation. There are none when it panics before it moves. -/
def moves (s : HistoryState β) : Op β → Option (List (Move β))
  | .push record => some [.insert s.records.length record]
  | .insert index record => if index ≤ s.records.length then some [.insert index record] else none
  | .remove index => some [.remove index]
  | .upsert_assistant_stream_state now stream_id preview_markdown delta metadata =>
    some [upsert_move now s stream_id preview_markdown delta metadata]
  | .finalize_assistant_stream_state now stream_id markdown metadata token_usage =>
    some (take_moves s stream_id ++
      [message_move now s stream_id markdown metadata token_usage])
  | .restore snapshot => some [.restore snapshot]
  | .truncate_after id => some [.truncate id]
  | .apply_event (.Insert index record) => some [.insert index record]
  | .apply_event (.Replace index record) => some [.replace index record]
  | .apply_event (.Remove index) => some [.remove index]
  | .apply_domain_event now event => domain_moves now s event

/-! ## An operation is its moves -/

theorem set_retained_records (s : HistoryState β) (id retained : Nat)
    (records : List (HistoryRecord β)) :
    ({ s with records } : HistoryState β).set_exec_stream_retained id retained =
      { s.set_exec_stream_retained id retained with records } := by
  unfold set_exec_stream_retained
  split <;> rfl

theorem register_records (s : HistoryState β) (record : HistoryRecord β)
    (records : List (HistoryRecord β)) :
    ({ s with records } : HistoryState β).register_record record =
      { s.register_record record with records } := by
  cases record with
  | Exec state =>
    simp only [register_record]
    exact set_retained_records
      { s with exec_call_lookup := enroll s.exec_call_lookup state.id state.call_id.toList } _ _ _
  | _ => rfl

@[simp] theorem register_records_eq (s : HistoryState β) (record : HistoryRecord β) :
    (s.register_record record).records = s.records := by
  have := congrArg HistoryState.records (register_records s record s.records)
  exact this

theorem push_eq (s : HistoryState β) (record : HistoryRecord β) :
    (s.push record).1 = (s.insert_event s.records.length record).1 := by
  simp only [push, insert_event, next_history_id, register_records_eq, min_self,
    List.insertIdx_length_self]
  exact congrArg rebuild_id_index (register_records s.next_history_id.2 _ _).symm

theorem insert_eq (s : HistoryState β) (index : Nat) (record : HistoryRecord β) :
    (s.insert index record).map Prod.fst =
      if index ≤ s.records.length then some (s.insert_event index record).1 else none := by
  simp only [HistoryState.insert, insert_event, next_history_id, register_records_eq]
  split
  · rename_i h
    rw [min_eq_left h, Option.map_some]
    exact congrArg (some ∘ rebuild_id_index) (register_records s.next_history_id.2 _ _).symm
  · rfl

theorem remove_eq (s : HistoryState β) (index : Nat) :
    (s.remove index).1 = (s.remove_event index).1 := by
  unfold remove remove_event
  split <;> rfl

/-- The first moves of a final message are the removal of its stream. -/
theorem take_stream_eq (s : HistoryState β) (stream_id : Option Text) :
    (take_moves s stream_id).foldlM make s = some (s.take_stream stream_id).1 := by
  unfold take_moves take_stream
  rcases stream_id.bind fun stream_id => s.records.findIdx? (is_stream stream_id) with _ | idx
  · rfl
  · have hremove : (s.remove idx).1 = (s.remove_event idx).1 := remove_eq s idx
    simp only [List.foldlM_cons, List.foldlM_nil, make, ← hremove]
    rcases s.remove idx with ⟨t, _ | record⟩
    · rfl
    · cases record <;> rfl

/-- The last move of a final message, in the state where its stream is gone. -/
theorem finalize_eq (now : Nat) (s : HistoryState β) (stream_id : Option Text) (markdown : Text)
    (metadata : Option (MessageMetadata β)) (token_usage : Option β) :
    make (s.take_stream stream_id).1
        (message_move now s stream_id markdown metadata token_usage) =
      some (s.finalize_assistant_stream_state now stream_id markdown metadata token_usage).1 := by
  unfold message_move finalize_assistant_stream_state
  rcases s.take_stream stream_id with ⟨t, carried_citations, carried_metadata⟩
  dsimp only
  rcases t.existing_message stream_id with _ | ⟨idx, existing⟩
  · simp [make, insert_event, next_history_id, HistoryRecord.with_id, register_record]
  · rfl

theorem upsert_eq (now : Nat) (s : HistoryState β) (stream_id preview_markdown : Text)
    (delta : Option AssistantStreamDelta) (metadata : Option (MessageMetadata β)) :
    make s (upsert_move now s stream_id preview_markdown delta metadata) =
      some (s.upsert_assistant_stream now stream_id preview_markdown delta metadata).1 := by
  unfold upsert_move upsert_assistant_stream
  rcases s.records.findIdx? (is_stream stream_id) with _ | idx
  · rfl
  · dsimp only
    rcases s.records[idx]? with _ | record
    · rfl
    · cases record <;> rfl

theorem replaced_at_eq (s : HistoryState β) (index id : Nat) : (s.replaced_at index id).1 = s := by
  unfold replaced_at
  split <;> rfl

theorem replace_event_some {s : HistoryState β} {index : Nat} {existing : HistoryRecord β}
    (h : s.records[index]? = some existing) (record : HistoryRecord β) :
    s.replace_event index record =
      ((s.replace_event index record).1, .Replaced index existing.id
        (record.with_id existing.id)) := by
  simp only [replace_event, h]

theorem finish_eq (s : HistoryState β) (id : Option Nat) (call_id : Option Text)
    (set_fields : ExecRecord β → ExecRecord β) (stdout_tail stderr_tail : Option Text) :
    (s.finish_exec id call_id set_fields stdout_tail stderr_tail).map Prod.fst =
      (finish_moves s id call_id set_fields stdout_tail stderr_tail).bind
        fun ms => ms.foldlM make s := by
  unfold finish_exec finish_moves
  rcases s.finish_target id call_id with _ | idx
  · rfl
  · dsimp only
    rcases hidx : s.records[idx]? with _ | record
    · rfl
    · cases record with
      | Exec existing =>
        dsimp only
        rcases append_output (set_fields existing) (tail_chunk existing.stdout_chunks stdout_tail)
          (tail_chunk existing.stderr_chunks stderr_tail) with _ | updated
        · rfl
        · simp only [Option.bind_eq_bind, Option.bind_some, Option.map_some, List.foldlM_cons,
            List.foldlM_nil, make]
          rw [replace_event_some hidx]
          dsimp only
          rcases (s.replace_event idx (.Exec updated)).1.enforce_exec_stream_global_limit with _ | t
          · rfl
          · simp [replaced_at_eq]
      | _ => rfl

theorem domain_eq (now : Nat) (s : HistoryState β) (event : HistoryDomainEvent β) :
    (s.apply_domain_event now event).map Prod.fst =
      (domain_moves now s event).bind fun ms => ms.foldlM make s := by
  cases event with
  | Insert index record => rfl
  | Replace index record => rfl
  | Remove index => rfl
  | UpdateExecStream index stdout_chunk stderr_chunk =>
    simp only [apply_domain_event, update_exec_stream, domain_moves]
    rcases s.records[index]? with _ | record
    · rfl
    · cases record with
      | Exec existing =>
        dsimp only
        rcases append_output existing stdout_chunk stderr_chunk with _ | updated
        · rfl
        · simp only [Option.bind_eq_bind, Option.bind_some, Option.map_some, List.foldlM_cons,
            List.foldlM_nil, make]
          rcases (({ s with records := s.records.set index (.Exec updated) } :
            HistoryState β).set_exec_stream_retained updated.id
              (retained_exec_record_bytes updated)).enforce_exec_stream_global_limit with _ | t
          · rfl
          · simp [replaced_at_eq]
      | _ => rfl
  | UpsertAssistantStream stream_id preview_markdown delta metadata =>
    simp [apply_domain_event, domain_moves, upsert_eq]
  | UpdateExecWait index total_wait wait_active notes =>
    simp only [apply_domain_event, domain_moves]
    rcases s.records[index]? with _ | record
    · rfl
    · cases record <;> rfl
  | StartExec => rfl
  | FinishExec id call_id => exact finish_eq s id call_id _ _ _

/-- An operation makes its moves, and nothing else. -/
theorem step_eq (s : HistoryState β) (op : Op β) :
    step s op = (moves s op).bind fun ms => ms.foldlM make s := by
  cases op with
  | push record => simp [step, moves, make, push_eq]
  | insert index record =>
    simp only [step, moves, insert_eq]
    split <;> rfl
  | remove index => simp [step, moves, make, remove_eq]
  | upsert_assistant_stream_state now stream_id preview_markdown delta metadata =>
    exact domain_eq now s (.UpsertAssistantStream stream_id preview_markdown delta metadata)
  | finalize_assistant_stream_state now stream_id markdown metadata token_usage =>
    simp only [step, moves, Option.bind_some, List.foldlM_append, take_stream_eq]
    exact (finalize_eq now s stream_id markdown metadata token_usage).symm.trans (by simp)
  | restore snapshot => rfl
  | truncate_after id => rfl
  | apply_event event => cases event <;> rfl
  | apply_domain_event now event => exact domain_eq now s event

/-! ## The plan of an operation -/

/-- A move in place finds a record of the same kind, with the same id. -/
def Fits (s : HistoryState β) : Move β → Prop
  | .refresh index message =>
    ∃ old, s.records[index]? = some (.AssistantMessage old) ∧ old.id = message.id
  | .output index exec =>
    ∃ old, s.records[index]? = some (.Exec old) ∧ old.id = exec.id ∧ old.call_id = exec.call_id
  | _ => True

/-- The second moves that an operation makes after a first one. -/
inductive Follows : Move β → Move β → Prop
  | message_added (index at_index : Nat) (record : HistoryRecord β) :
    Follows (.remove index) (.insert at_index record)
  | message_refreshed (index at_index : Nat) (message : AssistantMessageState β) :
    Follows (.remove index) (.refresh at_index message)
  | replaced (index : Nat) (record : HistoryRecord β) : Follows (.replace index record) .enforce
  | output (index : Nat) (exec : ExecRecord β) : Follows (.output index exec) .enforce

/-- An operation makes two moves at most, and they fit. -/
inductive Planned (s : HistoryState β) : List (Move β) → Prop
  | none : Planned s []
  | one {m : Move β} : Fits s m → Planned s [m]
  | two {m m' : Move β} : Fits s m → Follows m m' → (∀ t, make s m = some t → Fits t m') →
    Planned s [m, m']

theorem upsert_fits (now : Nat) (s : HistoryState β) (stream_id preview_markdown : Text)
    (delta : Option AssistantStreamDelta) (metadata : Option (MessageMetadata β)) :
    Fits s (upsert_move now s stream_id preview_markdown delta metadata) := by
  unfold upsert_move
  rcases s.records.findIdx? (is_stream stream_id) with _ | idx
  · trivial
  · dsimp only
    rcases s.records[idx]? with _ | record
    · trivial
    · cases record <;> trivial

theorem existing_message_some {s : HistoryState β} {stream_id : Option Text} {idx : Nat}
    {existing : AssistantMessageState β} (h : s.existing_message stream_id = some (idx, existing)) :
    s.records[idx]? = some (.AssistantMessage existing) := by
  unfold existing_message at h
  split at h
  · split at h
    · rename_i hget
      obtain ⟨rfl, rfl⟩ := Prod.mk.inj (Option.some.inj h)
      exact hget
    · cases h
  · cases h

/-- The message is added, or refreshed where it is, once its stream is gone. -/
theorem message_move_cases (now : Nat) (s : HistoryState β) (stream_id : Option Text)
    (markdown : Text) (metadata : Option (MessageMetadata β)) (token_usage : Option β) :
    (∃ at_index message, message_move now s stream_id markdown metadata token_usage =
      .insert at_index (.AssistantMessage message)) ∨
    (∃ at_index message, message_move now s stream_id markdown metadata token_usage =
      .refresh at_index message ∧ Fits (s.take_stream stream_id).1 (.refresh at_index message)) := by
  unfold message_move
  rcases s.take_stream stream_id with ⟨t, carried_citations, carried_metadata⟩
  dsimp only
  rcases hmsg : t.existing_message stream_id with _ | ⟨idx, existing⟩
  · exact .inl ⟨_, _, rfl⟩
  · exact .inr ⟨_, _, rfl, existing, existing_message_some hmsg, rfl⟩

theorem finalize_planned (now : Nat) (s : HistoryState β) (stream_id : Option Text)
    (markdown : Text) (metadata : Option (MessageMetadata β)) (token_usage : Option β) :
    Planned s (take_moves s stream_id ++
      [message_move now s stream_id markdown metadata token_usage]) := by
  have htake := take_stream_eq s stream_id
  revert htake
  unfold take_moves
  rcases stream_id.bind fun stream_id => s.records.findIdx? (is_stream stream_id) with _ | idx
  · intro htake
    obtain htake : s = (s.take_stream stream_id).1 := by simpa using htake
    apply Planned.one
    rcases message_move_cases now s stream_id markdown metadata token_usage with
      ⟨i, message, h⟩ | ⟨i, message, h, hfit⟩
    · rw [h]
      trivial
    · rw [h]
      rwa [← htake] at hfit
  · intro htake
    have htaken : make s (.remove idx) = some (s.take_stream stream_id).1 := by
      simpa using htake
    rcases message_move_cases now s stream_id markdown metadata token_usage with
      ⟨i, message, h⟩ | ⟨i, message, h, hfit⟩
    · rw [h]
      exact .two trivial (.message_added idx i _) fun _ _ => trivial
    · rw [h]
      refine .two trivial (.message_refreshed idx i message) ?_
      intro t ht
      obtain rfl := Option.some.inj (htaken.symm.trans ht)
      exact hfit

theorem append_output_some {exec exec' : ExecRecord β} {out err : Option ExecStreamChunk}
    (h : append_output exec out err = some exec') :
    ∃ stdout_chunks stderr_chunks, append_optional exec.stdout_chunks out = some stdout_chunks ∧
      append_optional exec.stderr_chunks err = some stderr_chunks ∧
      exec' = { exec with stdout_chunks, stderr_chunks } := by
  obtain ⟨stdout_chunks, hout, h⟩ := Option.bind_eq_some_iff.mp h
  obtain ⟨stderr_chunks, herr, h⟩ := Option.bind_eq_some_iff.mp h
  exact ⟨stdout_chunks, stderr_chunks, hout, herr, (Option.some.inj h).symm⟩

theorem finish_planned {s : HistoryState β} {id : Option Nat} {call_id : Option Text}
    {set_fields : ExecRecord β → ExecRecord β} {stdout_tail stderr_tail : Option Text}
    {ms : List (Move β)}
    (h : finish_moves s id call_id set_fields stdout_tail stderr_tail = some ms) :
    Planned s ms := by
  unfold finish_moves at h
  split at h
  · split at h
    · obtain ⟨updated, _, rfl⟩ := Option.map_eq_some_iff.mp h
      exact .two trivial (.replaced _ _) fun _ _ => trivial
    · obtain rfl := Option.some.inj h
      exact .none
  · obtain rfl := Option.some.inj h
    exact .none

theorem domain_planned {now : Nat} {s : HistoryState β} {event : HistoryDomainEvent β}
    {ms : List (Move β)} (h : domain_moves now s event = some ms) : Planned s ms := by
  cases event with
  | UpdateExecStream index stdout_chunk stderr_chunk =>
    simp only [domain_moves] at h
    split at h
    · rename_i existing hget
      obtain ⟨updated, hupdated, rfl⟩ := Option.map_eq_some_iff.mp h
      obtain ⟨_, _, _, _, rfl⟩ := append_output_some hupdated
      exact .two ⟨existing, hget, rfl, rfl⟩ (.output _ _) fun _ _ => trivial
    · obtain rfl := Option.some.inj h
      exact .none
  | UpdateExecWait index total_wait wait_active notes =>
    simp only [domain_moves] at h
    split at h
    · obtain rfl := Option.some.inj h
      exact .one trivial
    · obtain rfl := Option.some.inj h
      exact .none
  | UpsertAssistantStream stream_id preview_markdown delta metadata =>
    obtain rfl := Option.some.inj h
    exact .one (upsert_fits _ _ _ _ _ _)
  | FinishExec => exact finish_planned h
  | _ =>
    obtain rfl := Option.some.inj h
    exact .one trivial

theorem moves_planned {s : HistoryState β} {op : Op β} {ms : List (Move β)}
    (h : moves s op = some ms) : Planned s ms := by
  cases op with
  | insert index record =>
    simp only [moves] at h
    split at h
    · obtain rfl := Option.some.inj h
      exact .one trivial
    · cases h
  | upsert_assistant_stream_state now stream_id preview_markdown delta metadata =>
    obtain rfl := Option.some.inj h
    exact .one (upsert_fits _ _ _ _ _ _)
  | finalize_assistant_stream_state now stream_id markdown metadata token_usage =>
    obtain rfl := Option.some.inj h
    exact finalize_planned _ _ _ _ _ _
  | apply_event event =>
    cases event <;>
      · obtain rfl := Option.some.inj h
        exact .one trivial
  | apply_domain_event now event => exact domain_planned h
  | _ =>
    obtain rfl := Option.some.inj h
    exact .one trivial

/-- What the moves keep is kept by the operation. `Q` is judged before the operation; `hlater`
carries it to the second move. -/
theorem step_keeps {Q : HistoryState β → Move β → Prop} {I : HistoryState β → Prop}
    (hmake : ∀ s m s', I s → Fits s m → Q s m → make s m = some s' → I s')
    (hlater : ∀ s m m' t, I s → Fits s m → Q s m → Follows m m' → make s m = some t → Q s m' →
      Q t m')
    {s s' : HistoryState β} {op : Op β} (hq : ∀ ms, moves s op = some ms → ∀ m ∈ ms, Q s m)
    (hs : I s) (h : step s op = some s') : I s' := by
  rw [step_eq] at h
  obtain ⟨ms, hms, hrun⟩ := Option.bind_eq_some_iff.mp h
  have hall := hq ms hms
  have hguard : Guarded make (fun s m => Fits s m ∧ Q s m) s ms := by
    cases moves_planned hms with
    | none => trivial
    | one hfit => exact guarded_one ⟨hfit, hall _ (by simp)⟩
    | two hfit hfollows hfit' =>
      have hq₁ := hall _ List.mem_cons_self
      apply guarded_two ⟨hfit, hq₁⟩
      intro t ht
      exact ⟨hfit' t ht, hlater _ _ _ t hs hfit hq₁ hfollows ht (hall _ (by simp))⟩
  exact hguard.invariant (fun s m s' hi hg hm => hmake s m s' hi hg.1 hg.2 hm) hs hrun

/-- What holds of an empty history and is kept by the moves holds in every run. -/
theorem run_keeps {Q : HistoryState β → Move β → Prop} {I : HistoryState β → Prop}
    {Ok : HistoryState β → Op β → Prop} (hnew : I HistoryState.new)
    (hmake : ∀ s m s', I s → Fits s m → Q s m → make s m = some s' → I s')
    (hlater : ∀ s m m' t, I s → Fits s m → Q s m → Follows m m' → make s m = some t → Q s m' →
      Q t m')
    (hok : ∀ s op, I s → Ok s op → ∀ ms, moves s op = some ms → ∀ m ∈ ms, Q s m)
    {s : HistoryState β} (h : Reached step HistoryState.new Ok s) : I s :=
  h.invariant hnew fun s op _ hs hop hstep => step_keeps hmake hlater (hok s op hs hop) hs hstep

end Ecode.history
