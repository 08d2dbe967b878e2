-- The texts that an update of a command's output cuts (core/src/history/state.rs), at bytes
-- counted from offsets and limits: the update returns just when each cut is at the border of
-- a character.
import Ecode.HistoryState
import Ecode.Truncate

namespace Ecode.history

open HistoryState registry

/-! ## Cuts -/

/-- A text and the byte where it is cut. -/
structure Cut where
  text : Text
  byte : Nat
  deriving DecidableEq, Repr

/-- The cut is at the border of a character. -/
def Cut.clean (cut : Cut) : Bool := truncate.is_char_boundary cut.text cut.byte

/-- The characters that begin before a byte, and those from it on. -/
def halves : Nat → Text → Text × Text
  | 0, t => ([], t)
  | _ + 1, [] => ([], [])
  | n + 1, c :: t =>
    let (before, after) := halves (n + 1 - c.utf8Size) t
    (c :: before, after)

theorem cut_eq_halves {n : Nat} {t : Text} (h : (Text.cut n t).isSome) :
    Text.cut n t = some (halves n t) := by
  induction t generalizing n with
  | nil =>
    cases n with
    | zero => rfl
    | succ n => simp [Text.cut] at h
  | cons c t ih =>
    cases n with
    | zero => rfl
    | succ n =>
      rw [Text.cut] at h ⊢
      split at h
      · next hle =>
        rw [if_pos hle, ih (by simpa using h)]
        rfl
      · cases h

/-- What cuts texts on the way gives a value, unless a cut is not clean: then it panics. -/
def Guarded {α : Type} (result : Option α) (value : α) (cuts : List Cut) : Prop :=
  result = if cuts.all Cut.clean then some value else none

section guarded

variable {α γ : Type} {result : Option α} {value : α} {cuts more : List Cut}

theorem Guarded.pure (value : α) : Guarded (some value) value [] := rfl

theorem Guarded.bind {f : α → Option γ} {value' : γ} (h : Guarded result value cuts)
    (hf : Guarded (f value) value' more) : Guarded (result >>= f) value' (cuts ++ more) := by
  unfold Guarded at *
  rw [h, List.all_append]
  cases cuts.all Cut.clean with
  | false => rfl
  | true =>
    simp only [if_true, Bool.true_and]
    exact hf

theorem Guarded.map {f : α → γ} (h : Guarded result value cuts) :
    Guarded (result.map f) (f value) cuts := by
  unfold Guarded at *
  rw [h]
  cases cuts.all Cut.clean <;> rfl

/-- What is made of the value at the end cuts nothing. -/
theorem Guarded.then_some {f : α → γ} (h : Guarded result value cuts) :
    Guarded (result >>= fun a => some (f a)) (f value) cuts := by
  rw [← List.append_nil cuts]
  exact h.bind (Guarded.pure _)

theorem Guarded.isSome_iff (h : Guarded result value cuts) :
    result.isSome ↔ ∀ cut ∈ cuts, cut.clean = true := by
  unfold Guarded at h
  rw [h, ← List.all_eq_true]
  cases cuts.all Cut.clean <;> simp

theorem guarded_cut (n : Nat) (t : Text) : Guarded (Text.cut n t) (halves n t) [⟨t, n⟩] := by
  unfold Guarded Cut.clean truncate.is_char_boundary
  simp only [List.all_cons, List.all_nil, Bool.and_true]
  split
  · next h => exact cut_eq_halves h
  · next h => simpa using h

end guarded

/-! ## One stream -/

/-- The chunks of a stream before a byte, from the last to the first, with the cut that the last
of them is made by. -/
def before_byte (truncate_at : Nat) :
    List ExecStreamChunk → List ExecStreamChunk × List Cut
  | [] => ([], [])
  | last :: rest =>
    if truncate_at ≥ last.stop then (last :: rest, [])
    else if truncate_at ≤ last.offset then before_byte truncate_at rest
    else
      let at_byte := truncate_at - last.offset
      ({ last with content := (halves at_byte last.content).1 } :: rest, [⟨last.content, at_byte⟩])

theorem truncate_last_guarded (truncate_at : Nat) (chunks : List ExecStreamChunk) :
    Guarded (truncate_last truncate_at chunks) (before_byte truncate_at chunks).1
      (before_byte truncate_at chunks).2 := by
  induction chunks with
  | nil => exact Guarded.pure _
  | cons last rest ih =>
    rw [truncate_last, before_byte]
    split
    · exact Guarded.pure _
    · split
      · exact ih
      · exact (guarded_cut _ _).map

/-- The chunks of a stream without its first bytes, with the cut that the first of them is
made by. -/
def after_bytes (bytes_to_drop : Nat) :
    List ExecStreamChunk → List ExecStreamChunk × List Cut
  | [] => ([], [])
  | first :: rest =>
    if bytes_to_drop ≥ Text.len first.content then
      after_bytes (bytes_to_drop - Text.len first.content) rest
    else if bytes_to_drop > 0 then
      (⟨saturating_add first.offset bytes_to_drop, (halves bytes_to_drop first.content).2⟩ :: rest,
        [⟨first.content, bytes_to_drop⟩])
    else (first :: rest, [])

theorem drop_bytes_guarded (bytes_to_drop : Nat) (chunks : List ExecStreamChunk) :
    Guarded (drop_bytes bytes_to_drop chunks) (after_bytes bytes_to_drop chunks).1
      (after_bytes bytes_to_drop chunks).2 := by
  induction chunks generalizing bytes_to_drop with
  | nil => exact Guarded.pure _
  | cons first rest ih =>
    rw [drop_bytes, after_bytes]
    split
    · exact ih _
    · split
      · exact (guarded_cut _ _).map
      · exact Guarded.pure _

/-- The last `max_bytes` of a stream. -/
def pruned (chunks : List ExecStreamChunk) (max_bytes : Nat) :
    List ExecStreamChunk × List Cut :=
  let retained := retained_stream_len chunks
  if retained ≤ max_bytes then (chunks, []) else after_bytes (retained - max_bytes) chunks

theorem prune_guarded (chunks : List ExecStreamChunk) (max_bytes : Nat) :
    Guarded (prune_exec_stream chunks max_bytes) (pruned chunks max_bytes).1
      (pruned chunks max_bytes).2 := by
  unfold prune_exec_stream pruned
  dsimp only
  split
  · exact Guarded.pure _
  · exact drop_bytes_guarded _ _

/-- The stream up to the offset of a new chunk, with the chunk, and pruned. -/
def appended (chunks : List ExecStreamChunk) (chunk : ExecStreamChunk) :
    List ExecStreamChunk × List Cut :=
  let (kept, cuts) := before_byte chunk.offset chunks.reverse
  let (stream, more) := pruned (join_chunk kept.reverse chunk) MAX_EXEC_STREAM_RETAINED_BYTES
  (stream, cuts ++ more)

theorem append_guarded (chunks : List ExecStreamChunk) (chunk : ExecStreamChunk) :
    Guarded (append_exec_chunk chunks chunk) (appended chunks chunk).1
      (appended chunks chunk).2 := by
  unfold append_exec_chunk appended truncate_exec_stream
  dsimp only
  exact (truncate_last_guarded _ _).map.bind (prune_guarded _ _)

/-! ## One record -/

def appended_optional (chunks : List ExecStreamChunk) (chunk : Option ExecStreamChunk) :
    List ExecStreamChunk × List Cut :=
  match chunk with
  | some chunk => appended chunks chunk
  | none => (chunks, [])

theorem append_optional_guarded (chunks : List ExecStreamChunk) (chunk : Option ExecStreamChunk) :
    Guarded (append_optional chunks chunk) (appended_optional chunks chunk).1
      (appended_optional chunks chunk).2 := by
  cases chunk with
  | none => exact Guarded.pure _
  | some chunk => exact append_guarded chunks chunk

/-- A record with more output, and the cuts of both streams. -/
def with_output (exec : ExecRecord β) (stdout_chunk stderr_chunk : Option ExecStreamChunk) :
    ExecRecord β × List Cut :=
  let (stdout_chunks, cuts) := appended_optional exec.stdout_chunks stdout_chunk
  let (stderr_chunks, more) := appended_optional exec.stderr_chunks stderr_chunk
  ({ exec with stdout_chunks, stderr_chunks }, cuts ++ more)

theorem append_output_guarded (exec : ExecRecord β)
    (stdout_chunk stderr_chunk : Option ExecStreamChunk) :
    Guarded (append_output exec stdout_chunk stderr_chunk)
      (with_output exec stdout_chunk stderr_chunk).1
      (with_output exec stdout_chunk stderr_chunk).2 := by
  unfold append_output with_output
  dsimp only
  apply (append_optional_guarded _ _).bind
  exact (append_optional_guarded _ _).then_some

/-- A record pruned for the global limit, and the cuts of both streams. -/
def pruned_record (exec : ExecRecord β) : ExecRecord β × List Cut :=
  let (stdout_chunks, cuts) := pruned exec.stdout_chunks EXEC_STREAM_PRUNE_TARGET_BYTES
  let (stderr_chunks, more) := pruned exec.stderr_chunks EXEC_STREAM_PRUNE_TARGET_BYTES
  ({ exec with stdout_chunks, stderr_chunks }, cuts ++ more)

/-! ## The global limit -/

/-- The cuts of the records that the global limit prunes, from the oldest on. -/
def limit_cuts (bytes_to_drop : Nat) (by_id : Lookup Nat Nat) :
    List (HistoryRecord β) → List Cut
  | [] => []
  | .Exec exec :: records =>
    if bytes_to_drop = 0 then []
    else
      let before := (by_id.lookup exec.id).getD (retained_exec_record_bytes exec)
      if before = 0 then limit_cuts bytes_to_drop by_id records
      else
        let after := retained_exec_record_bytes (pruned_record exec).1
        (pruned_record exec).2 ++
          limit_cuts (bytes_to_drop - (before - after)) (by_id.insert exec.id after) records
  | _ :: records => limit_cuts bytes_to_drop by_id records

/-- A record in front of the others cuts nothing. -/
theorem cons_guarded (record : HistoryRecord β)
    {rest : Option (List (HistoryRecord β) × Lookup Nat Nat × Nat)} {cuts : List Cut}
    (h : ∃ value, Guarded rest value cuts) : ∃ value, Guarded (do
      let (records, by_id, total) ← rest
      some (record :: records, by_id, total)) value cuts := by
  obtain ⟨value, h⟩ := h
  exact ⟨(record :: value.1, value.2.1, value.2.2), h.then_some⟩

theorem enforce_records_guarded (bytes_to_drop : Nat) (by_id : Lookup Nat Nat) (total : Nat)
    (records : List (HistoryRecord β)) :
    ∃ value, Guarded (enforce_records bytes_to_drop by_id total records) value
      (limit_cuts bytes_to_drop by_id records) := by
  induction records generalizing bytes_to_drop by_id total with
  | nil => exact ⟨_, Guarded.pure _⟩
  | cons record records ih =>
    cases record with
    | Exec exec =>
      rw [enforce_records, limit_cuts]
      split
      · exact ⟨_, Guarded.pure _⟩
      · dsimp only
        split
        · exact cons_guarded _ (ih _ _ _)
        · unfold pruned_record
          dsimp only
          rw [List.append_assoc]
          obtain ⟨value, h⟩ := cons_guarded _ (ih _ _ _)
          refine ⟨value, ?_⟩
          apply (prune_guarded _ _).bind
          apply (prune_guarded _ _).bind
          exact h
    | _ => exact cons_guarded _ (ih _ _ _)

def global_limit_cuts (s : HistoryState β) : List Cut :=
  if s.exec_stream_retained_total_bytes ≤ GLOBAL_EXEC_STREAM_RETAINED_BYTES then []
  else limit_cuts (s.exec_stream_retained_total_bytes - GLOBAL_EXEC_STREAM_RETAINED_BYTES)
    s.exec_stream_retained_by_id s.records

theorem enforce_guarded (s : HistoryState β) :
    ∃ value, Guarded s.enforce_exec_stream_global_limit value (global_limit_cuts s) := by
  unfold enforce_exec_stream_global_limit global_limit_cuts
  split
  · exact ⟨_, Guarded.pure _⟩
  · obtain ⟨value, h⟩ := enforce_records_guarded
      (s.exec_stream_retained_total_bytes - GLOBAL_EXEC_STREAM_RETAINED_BYTES)
      s.exec_stream_retained_by_id s.exec_stream_retained_total_bytes s.records
    exact ⟨_, h.then_some⟩

/-! ## The events -/

/-- The cuts of `UpdateExecStream`: of the streams of the record, and then for the global
limit. -/
def update_cuts (s : HistoryState β) (index : Nat)
    (stdout_chunk stderr_chunk : Option ExecStreamChunk) : List Cut :=
  match s.records[index]? with
  | some (.Exec existing) =>
    let (updated, cuts) := with_output existing stdout_chunk stderr_chunk
    let s := ({ s with records := s.records.set index (.Exec updated) } : HistoryState β)
    cuts ++ global_limit_cuts
      (s.set_exec_stream_retained updated.id (retained_exec_record_bytes updated))
  | _ => []

/-- The cuts of `FinishExec`. -/
def finish_cuts (s : HistoryState β) (id : Option Nat) (call_id : Option Text)
    (set_fields : ExecRecord β → ExecRecord β) (stdout_tail stderr_tail : Option Text) :
    List Cut :=
  match s.finish_target id call_id with
  | some idx =>
    match s.records[idx]? with
    | some (.Exec existing) =>
      let (updated, cuts) := with_output (set_fields existing)
        (tail_chunk existing.stdout_chunks stdout_tail)
        (tail_chunk existing.stderr_chunks stderr_tail)
      cuts ++ global_limit_cuts (s.replace_event idx (.Exec updated)).1
    | _ => []
  | none => []

/-- The cuts of an event. The other events cut no text of a command's output. -/
def event_cuts (s : HistoryState β) : HistoryDomainEvent β → List Cut
  | .UpdateExecStream index stdout_chunk stderr_chunk =>
    update_cuts s index stdout_chunk stderr_chunk
  | .FinishExec id call_id status exit_code completed_at stdout_tail stderr_tail wait_total
      wait_active wait_notes =>
    finish_cuts s id call_id
      (fun existing =>
        { existing with status, exit_code, completed_at, wait_total, wait_active, wait_notes })
      stdout_tail stderr_tail
  | _ => []

theorem update_guarded (s : HistoryState β) (index : Nat)
    (stdout_chunk stderr_chunk : Option ExecStreamChunk) :
    ∃ value, Guarded (s.update_exec_stream index stdout_chunk stderr_chunk) value
      (update_cuts s index stdout_chunk stderr_chunk) := by
  unfold update_exec_stream update_cuts
  cases s.records[index]? with
  | none => exact ⟨_, Guarded.pure _⟩
  | some record =>
    cases record with
    | Exec existing =>
      dsimp only
      have happend := append_output_guarded existing stdout_chunk stderr_chunk
      generalize with_output existing stdout_chunk stderr_chunk = grown at happend ⊢
      obtain ⟨value, h⟩ := enforce_guarded
        (({ s with records := s.records.set index (.Exec grown.1) } : HistoryState β)
          |>.set_exec_stream_retained grown.1.id (retained_exec_record_bytes grown.1))
      exact ⟨value.replaced_at index grown.1.id, happend.bind h.then_some⟩
    | _ => exact ⟨_, Guarded.pure _⟩

theorem finish_guarded (s : HistoryState β) (id : Option Nat) (call_id : Option Text)
    (set_fields : ExecRecord β → ExecRecord β) (stdout_tail stderr_tail : Option Text) :
    ∃ value, Guarded (s.finish_exec id call_id set_fields stdout_tail stderr_tail) value
      (finish_cuts s id call_id set_fields stdout_tail stderr_tail) := by
  unfold finish_exec finish_cuts
  cases s.finish_target id call_id with
  | none => exact ⟨_, Guarded.pure _⟩
  | some idx =>
    dsimp only
    cases hget : s.records[idx]? with
    | none => exact ⟨_, Guarded.pure _⟩
    | some record =>
      cases record with
      | Exec existing =>
        dsimp only
        have happend := append_output_guarded (set_fields existing)
          (tail_chunk existing.stdout_chunks stdout_tail)
          (tail_chunk existing.stderr_chunks stderr_tail)
        generalize with_output (set_fields existing)
          (tail_chunk existing.stdout_chunks stdout_tail)
          (tail_chunk existing.stderr_chunks stderr_tail) = grown at happend ⊢
        obtain ⟨value, h⟩ := enforce_guarded (s.replace_event idx (.Exec grown.1)).1
        refine ⟨value.replaced_at idx grown.1.id, happend.bind ?_⟩
        unfold replace_event at h ⊢
        rw [hget] at h ⊢
        exact h.then_some
      | _ => exact ⟨_, Guarded.pure _⟩

/-- A command that has written a character of two bytes. -/
def accented : HistoryRecord Unit :=
  .Exec ⟨0, some "call".toList, [], [], .Run, .Running, [⟨0, "é".toList⟩], [], none, none, false,
    [], 0, none, none, [], []⟩

end Ecode.history
