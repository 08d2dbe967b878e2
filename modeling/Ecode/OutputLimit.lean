-- Events that bring output to a history (core/src/history/state.rs): the limit on all output is
-- enforced after them.
import Ecode.ExecStreamLimit

namespace Ecode.history

open registry runs ledger HistoryState

variable {β : Type}

/-! ## Events of output -/

/-- The event brings output, and finds the command that it is for. -/
def finds_command (s : HistoryState β) : HistoryDomainEvent β → Prop
  | .UpdateExecStream index _ _ => ∃ exec, s.records[index]? = some (.Exec exec)
  | .FinishExec id call_id .. =>
    ∃ idx exec, s.finish_target id call_id = some idx ∧ s.records[idx]? = some (.Exec exec)
  | _ => False

/-- The texts of the event have characters of one byte. -/
def event_ascii : HistoryDomainEvent β → Prop
  | .UpdateExecStream _ stdout_chunk stderr_chunk =>
    (∀ c ∈ stdout_chunk, Ascii c.content) ∧ ∀ c ∈ stderr_chunk, Ascii c.content
  | .FinishExec _ _ _ _ _ stdout_tail stderr_tail _ _ _ =>
    (∀ t ∈ stdout_tail, Ascii t) ∧ ∀ t ∈ stderr_tail, Ascii t
  | _ => True

/-- The moves of an event of output: a command gets what the event brings, and the limit is
enforced. -/
structure OutputMoves (now : Nat) (s : HistoryState β) (event : HistoryDomainEvent β) where
  index : Nat
  existing : ExecRecord β
  start : ExecRecord β
  out : Option ExecStreamChunk
  err : Option ExecStreamChunk
  move : ExecRecord β → Move β
  found : s.records[index]? = some (.Exec existing)
  same_streams : start.stdout_chunks = existing.stdout_chunks ∧
    start.stderr_chunks = existing.stderr_chunks
  moves : domain_moves now s event =
    (append_output start out err).map fun updated => [move updated, .enforce]
  made : ∀ updated : ExecRecord β, ∃ t exec, make s (move updated) = some t ∧
    t.records = s.records.set index (.Exec exec) ∧
      exec.stdout_chunks = updated.stdout_chunks ∧ exec.stderr_chunks = updated.stderr_chunks
  fits : bytes_fit s (.apply_domain_event now event) →
    chunk_end out ≤ U64_MAX ∧ chunk_end err ≤ U64_MAX
  ascii : event_ascii event → (∀ c ∈ out, Ascii c.content) ∧ ∀ c ∈ err, Ascii c.content

theorem stream_end_le_ends {s : HistoryState β} {index : Nat} {record : HistoryRecord β}
    (h : s.records[index]? = some record) : stream_end record ≤ ends s.records := by
  rw [ends_perm (erase_perm h)]
  exact Nat.le_add_right _ _

theorem tail_chunk_ascii {chunks : List ExecStreamChunk} {tail : Option Text}
    (h : ∀ t ∈ tail, Ascii t) : ∀ c ∈ tail_chunk chunks tail, Ascii c.content := by
  intro c hc
  unfold tail_chunk at hc
  cases tail with
  | none => cases hc
  | some tail =>
    dsimp only at hc
    split at hc
    · cases hc
    · cases hc
      exact h tail rfl

theorem finds_command.output_moves {now : Nat} {s : HistoryState β} {event : HistoryDomainEvent β}
    (h : finds_command s event) : Nonempty (OutputMoves now s event) := by
  cases event with
  | UpdateExecStream index stdout_chunk stderr_chunk =>
    obtain ⟨exec, hget⟩ := h
    refine ⟨⟨index, exec, exec, stdout_chunk, stderr_chunk, .output index, hget, ⟨rfl, rfl⟩, ?_, ?_,
      ?_, id⟩⟩
    · simp only [domain_moves, hget]
    · intro updated
      refine ⟨_, updated, rfl, ?_, rfl, rfl⟩
      rw [set_retained_records_eq]
    · intro hfit
      have hsum : ends s.records + (chunk_end stdout_chunk + chunk_end stderr_chunk) ≤ U64_MAX :=
        hfit
      exact ⟨by omega, by omega⟩
  | FinishExec id call_id status exit_code completed_at stdout_tail stderr_tail wait_total
      wait_active wait_notes =>
    obtain ⟨idx, exec, htarget, hget⟩ := h
    refine ⟨⟨idx, exec,
      { exec with status, exit_code, completed_at, wait_total, wait_active, wait_notes },
      tail_chunk exec.stdout_chunks stdout_tail, tail_chunk exec.stderr_chunks stderr_tail,
      fun updated => .replace idx (.Exec updated), hget, ⟨rfl, rfl⟩, ?_, ?_, ?_, ?_⟩⟩
    · simp only [domain_moves, finish_moves, htarget, hget]
    · intro updated
      refine ⟨_, { updated with id := exec.id }, rfl, ?_, rfl, rfl⟩
      exact replace_event_records hget (.Exec updated)
    · intro hfit
      have hsum : ends s.records + (tail_len stdout_tail + tail_len stderr_tail) ≤ U64_MAX := hfit
      have hend : stream_len exec.stdout_chunks + stream_len exec.stderr_chunks ≤ ends s.records :=
        stream_end_le_ends hget
      have hout := tail_chunk_end exec.stdout_chunks stdout_tail
      have herr := tail_chunk_end exec.stderr_chunks stderr_tail
      exact ⟨by omega, by omega⟩
    · rintro ⟨hout, herr⟩
      exact ⟨tail_chunk_ascii hout, tail_chunk_ascii herr⟩
  | _ => cases h

/-! ## The limit after an event -/

/-- All streams of the history are contiguous, with characters of one byte. -/
def ContiguousAscii (s : HistoryState β) : Prop :=
  ∀ exec, .Exec exec ∈ s.records →
    (Contiguous exec.stdout_chunks ∧ Contiguous exec.stderr_chunks) ∧ StreamsAscii exec

/-- The history with the output of the event, before the limit is enforced. -/
def before_limit (now : Nat) (s : HistoryState β) (event : HistoryDomainEvent β) :
    Option (HistoryState β) :=
  (domain_moves now s event).bind fun ms => ms.dropLast.foldlM make s

/-- A property of the streams of all commands, once one command has new streams. -/
theorem all_streams_set {P : List ExecStreamChunk → List ExecStreamChunk → Prop}
    {records : List (HistoryRecord β)} {index : Nat} {exec updated : ExecRecord β}
    (hout : exec.stdout_chunks = updated.stdout_chunks)
    (herr : exec.stderr_chunks = updated.stderr_chunks)
    (hall : ∀ e, .Exec e ∈ records → P e.stdout_chunks e.stderr_chunks)
    (hupdated : P updated.stdout_chunks updated.stderr_chunks) :
    ∀ e, .Exec e ∈ records.set index (.Exec exec) → P e.stdout_chunks e.stderr_chunks := by
  intro e hmem
  rcases List.mem_or_eq_of_mem_set hmem with hmem | heq
  · exact hall e hmem
  · obtain rfl := HistoryRecord.Exec.inj heq
    rw [hout, herr]
    exact hupdated

/-- With characters of one byte the event returns. -/
theorem OutputMoves.returns {now : Nat} {s : HistoryState β} {event : HistoryDomainEvent β}
    (m : OutputMoves now s event) (hstreams : ContiguousAscii s) (hascii : event_ascii event) :
    ∃ result, s.apply_domain_event now event = some result := by
  have hexisting := (hstreams m.existing (List.mem_of_getElem? m.found)).2
  have hstart : StreamsAscii m.start := by
    unfold StreamsAscii
    rw [m.same_streams.1, m.same_streams.2]
    exact hexisting
  obtain ⟨updated, hupdated, hafter⟩ :=
    append_output_ascii hstart (m.ascii hascii).1 (m.ascii hascii).2
  obtain ⟨t, exec, hmake, hrecords, hout, herr⟩ := m.made updated
  have hall : ∀ e, .Exec e ∈ t.records → StreamsAscii e := by
    rw [hrecords]
    exact all_streams_set (P := fun out err => AsciiChunks out ∧ AsciiChunks err) hout herr
      (fun e hmem => (hstreams e hmem).2) hafter
  obtain ⟨after, henforce⟩ := enforce_returns hall
  have hrun := domain_eq now s event
  rw [m.moves, hupdated, Option.map_some, Option.bind_some, List.foldlM_cons, hmake] at hrun
  have hboth : (s.apply_domain_event now event).map Prod.fst = some after := by
    rw [hrun]
    simpa [make] using henforce
  obtain ⟨result, hresult, -⟩ := Option.map_eq_some_iff.mp hboth
  exact ⟨result, hresult⟩

/-- The event leaves what the limit leaves of the history with its output. -/
theorem limit_after_output {now : Nat} {s after : HistoryState β} {event : HistoryDomainEvent β}
    {mutation : HistoryMutation β} (m : OutputMoves now s event)
    (hreach : Reached step HistoryState.new bytes_step s) (hstreams : ContiguousAscii s)
    (hfit : bytes_step s (.apply_domain_event now event))
    (hafter : s.apply_domain_event now event = some (after, mutation)) :
    ∃ written, before_limit now s event = some written ∧ LimitEnforced written after := by
  obtain ⟨hids, hends, hcounts⟩ := counts_in_every_run hreach
  have hrun := domain_eq now s event
  rw [hafter, m.moves] at hrun
  obtain ⟨ms, hms, hmade⟩ := Option.bind_eq_some_iff.mp hrun.symm
  obtain ⟨updated, hupdated, rfl⟩ := Option.map_eq_some_iff.mp hms
  obtain ⟨t, exec, hmake, hrecords, hout, herr⟩ := m.made updated
  rw [List.foldlM_cons, hmake] at hmade
  have henforce : t.enforce_exec_stream_global_limit = some after := by
    simpa [make] using hmade
  have hmoves : moves s (.apply_domain_event now event) = some [m.move updated, .enforce] := by
    rw [moves, m.moves, hupdated, Option.map_some]
  -- The first move keeps the ledger and the room.
  have hroom := moves_room hends hfit.2 hmoves _ List.mem_cons_self t hmake
  have htcounts : Counts t (entries t.records) := by
    cases moves_planned hmoves with
    | two hfits _ _ =>
      exact make_counts hids hcounts hends hfits (hfit.1 _ hmoves _ List.mem_cons_self) hmake hroom
  have hin_order : ∀ e, .Exec e ∈ s.records → StreamsInOrder e := fun e hmem =>
    ⟨(hstreams e hmem).1.1.in_order, (hstreams e hmem).1.2.in_order⟩
  have hstart : StreamsInOrder m.start := by
    unfold StreamsInOrder
    rw [m.same_streams.1, m.same_streams.2]
    exact hin_order m.existing (List.mem_of_getElem? m.found)
  obtain ⟨houtfits, herrfits⟩ := m.fits hfit.2
  have hafter_order : StreamsInOrder updated := by
    apply append_output_in_order hstart _ _ hupdated
    · intro c hc
      rw [Option.mem_def.mp hc] at houtfits
      exact houtfits
    · intro c hc
      rw [Option.mem_def.mp hc] at herrfits
      exact herrfits
  refine ⟨t, ?_, ?_⟩
  · rw [before_limit, m.moves, hupdated, Option.map_some, Option.bind_some]
    simpa using hmake
  · apply enforce_limit henforce htcounts hroom
    rw [hrecords]
    exact all_streams_set (P := fun out err => InOrder out ∧ InOrder err) hout herr hin_order
      hafter_order

/-! ## A history over the limit -/

theorem push_bytes_step {s : HistoryState β} {record : HistoryRecord β}
    (hid : s.next_id < U64_MAX) (hfit : ends s.records + stream_end record ≤ U64_MAX) :
    bytes_step s (.push record) := by
  refine ⟨?_, hfit⟩
  intro ms hms m hm
  obtain rfl := Option.some.inj hms
  obtain rfl := List.mem_singleton.mp hm
  exact hid

/-- An update of a stream inserts no record. -/
theorem output_bytes_step {now index : Nat} {s : HistoryState β}
    {stdout_chunk stderr_chunk : Option ExecStreamChunk}
    (h : ends s.records + (chunk_end stdout_chunk + chunk_end stderr_chunk) ≤ U64_MAX) :
    bytes_step s (.apply_domain_event now (.UpdateExecStream index stdout_chunk stderr_chunk)) := by
  refine ⟨?_, h⟩
  intro ms hms m hm
  have hmoves : domain_moves now s (.UpdateExecStream index stdout_chunk stderr_chunk) =
      some ms := hms
  rw [domain_moves] at hmoves
  split at hmoves
  · obtain ⟨updated, -, rfl⟩ := Option.map_eq_some_iff.mp hmoves
    rcases List.mem_pair.mp hm with rfl | rfl <;> trivial
  · obtain rfl := Option.some.inj hmoves
    cases hm

/-- A stream of one chunk. -/
def output_of (n : Nat) : List ExecStreamChunk := [⟨0, List.replicate n 'a'⟩]

theorem output_of_ascii (n : Nat) : AsciiChunks (output_of n) := by
  intro chunk hchunk
  obtain rfl := List.mem_singleton.mp hchunk
  intro c hc
  obtain rfl := List.eq_of_mem_replicate hc
  decide

theorem len_output_of (n : Nat) : Text.len (List.replicate n 'a') = n := by
  rw [(output_of_ascii n _ List.mem_cons_self).len, List.length_replicate]

section two

variable {n : Nat}

theorem output_of_contiguous (h : n ≤ U64_MAX) : Contiguous (output_of n) := by
  refine ⟨?_, List.isChain_singleton _⟩
  intro chunk hchunk
  obtain rfl := List.mem_singleton.mp hchunk
  rw [ExecStreamChunk.next, len_output_of, Nat.zero_add]
  exact h

theorem stream_len_output_of (h : n ≤ U64_MAX) : stream_len (output_of n) = n := by
  rw [output_of, (output_of_contiguous h).stream_len_eq, Nat.zero_add]
  simp [output, len_output_of]

theorem retained_output_of (h : n ≤ U64_MAX) : retained_stream_len (output_of n) = n :=
  stream_len_output_of h

theorem no_output_contiguous : Contiguous [] := ⟨nofun, List.isChain_nil⟩

/-- A small command, and a command of `n` bytes after it. -/
def small_and_large (n : Nat) : HistoryState Unit :=
  ((HistoryState.new.push (command (output_of 1))).1.push (command (output_of n))).1

theorem small_and_large_reached (h : n < U64_MAX) :
    Reached step HistoryState.new bytes_step (small_and_large n) := by
  have hsmall : stream_len (output_of 1) = 1 := stream_len_output_of (by decide)
  have hlarge : stream_len (output_of n) = n := stream_len_output_of (by omega)
  apply Reached.step (.step .start (push_bytes_step ?_ ?_) rfl) (push_bytes_step ?_ ?_) rfl
  · decide
  · show 0 + (stream_len (output_of 1) + 0) ≤ U64_MAX
    omega
  · show 2 < U64_MAX
    decide
  · show stream_len (output_of 1) + 0 + 0 + (stream_len (output_of n) + 0) ≤ U64_MAX
    omega

theorem small_and_large_ends (h : n < U64_MAX) : ends (small_and_large n).records = n + 1 := by
  have hsmall : stream_len (output_of 1) = 1 := stream_len_output_of (by decide)
  have hlarge : stream_len (output_of n) = n := stream_len_output_of (by omega)
  show stream_len (output_of 1) + 0 + (stream_len (output_of n) + 0 + 0) = n + 1
  omega

theorem small_and_large_finds (n : Nat) (stdout_chunk stderr_chunk : Option ExecStreamChunk) :
    finds_command (small_and_large n) (.UpdateExecStream 0 stdout_chunk stderr_chunk) :=
  ⟨_, rfl⟩

theorem command_contiguous_ascii {chunks : List ExecStreamChunk} {id : Nat} {exec : ExecRecord Unit}
    (hchunks : Contiguous chunks) (hascii : AsciiChunks chunks)
    (h : HistoryRecord.Exec exec = (command chunks).with_id id) :
    (Contiguous exec.stdout_chunks ∧ Contiguous exec.stderr_chunks) ∧ StreamsAscii exec := by
  obtain rfl := HistoryRecord.Exec.inj h
  exact ⟨⟨hchunks, no_output_contiguous⟩, hascii, nofun⟩

theorem small_and_large_streams (h : n < U64_MAX) : ContiguousAscii (small_and_large n) := by
  intro exec hmem
  have hrecords : (small_and_large n).records =
      [(command (output_of 1)).with_id 1, (command (output_of n)).with_id 2] := rfl
  rw [hrecords] at hmem
  rcases List.mem_pair.mp hmem with heq | heq
  · exact command_contiguous_ascii (output_of_contiguous (by decide)) (output_of_ascii 1) heq
  · exact command_contiguous_ascii (output_of_contiguous (by omega)) (output_of_ascii n) heq

end two

/-- A byte more than the limit. -/
def one_over : Nat := GLOBAL_EXEC_STREAM_RETAINED_BYTES + 1

/-! ## The limit after every event -/

/-- After an event of output the limit on all output holds, the oldest output is gone first, and
with characters of one byte the event returns. -/
theorem output_limit_holds {now : Nat} {s : HistoryState β} {event : HistoryDomainEvent β}
    (hreach : Reached step HistoryState.new bytes_step s) (hstreams : ContiguousAscii s)
    (hfit : bytes_step s (.apply_domain_event now event)) (hfinds : finds_command s event) :
    (event_ascii event → ∃ result, s.apply_domain_event now event = some result) ∧
      ∀ after mutation, s.apply_domain_event now event = some (after, mutation) →
        ∃ written, before_limit now s event = some written ∧ LimitEnforced written after := by
  obtain ⟨m⟩ := hfinds.output_moves
  refine ⟨m.returns hstreams, ?_⟩
  intro after mutation hafter
  exact limit_after_output m hreach hstreams hfit hafter

/-- The large command is over the limit, and output of the small one prunes it. -/
theorem limit_holds_after_chunk :
    ∃ after mutation, (small_and_large one_over).apply_domain_event 0
      (.UpdateExecStream 0 (some ⟨1, "b".toList⟩) none) = some (after, mutation) ∧
        WithinLimit after := by
  have hn : one_over < U64_MAX := by decide
  have hfit : ends (small_and_large one_over).records +
      (chunk_end (some ⟨1, "b".toList⟩) + chunk_end none) ≤ U64_MAX := by
    have hchunk : chunk_end (some ⟨1, "b".toList⟩) = 2 := by decide
    rw [small_and_large_ends hn, hchunk]
    decide
  have hstep : bytes_step (small_and_large one_over) (.apply_domain_event 0
      (.UpdateExecStream 0 (some ⟨1, "b".toList⟩) none)) := output_bytes_step hfit
  obtain ⟨hreturns, hholds⟩ := output_limit_holds (small_and_large_reached hn)
    (small_and_large_streams hn) hstep (small_and_large_finds _ _ _)
  obtain ⟨⟨after, mutation⟩, hafter⟩ := hreturns ⟨by simp [Ascii], nofun⟩
  obtain ⟨written, -, hlimit⟩ := hholds after mutation hafter
  exact ⟨after, mutation, hafter, hlimit.limit⟩

/-! ## Where the limit does not hold -/

/-- The commands that the limit shortens are the first of the history. -/
def ShortensFirst (written after : HistoryState β) : Prop :=
  ∀ (i j : Nat) (first second : ExecRecord β), i < j → written.records[i]? = some (.Exec first) →
    written.records[j]? = some (.Exec second) → after.records[j]? ≠ written.records[j]? →
    after.records[i]? ≠ written.records[i]?

section exceeding

variable {n : Nat}

/-- An event that finds no command leaves the history over the limit. -/
theorem noop_over_limit (hn : n ≤ U64_MAX) (hover : GLOBAL_EXEC_STREAM_RETAINED_BYTES < n) :
    ∃ mutation, (small_and_large n).apply_domain_event 0 (.UpdateExecStream 2 none none) =
      some (small_and_large n, mutation) ∧ ¬ WithinLimit (small_and_large n) := by
  refine ⟨.Noop, rfl, ?_⟩
  apply not_within_of_mem (List.mem_cons_of_mem _ List.mem_cons_self)
  rw [← retained_output_of hn] at hover
  exact hover

/-- An event that finds the small command shortens only the large one. -/
theorem large_alone_shortened (hn : n < U64_MAX) (hover : GLOBAL_EXEC_STREAM_RETAINED_BYTES < n) :
    ∃ written after mutation,
      before_limit 0 (small_and_large n) (.UpdateExecStream 0 none none) = some written ∧
        (small_and_large n).apply_domain_event 0 (.UpdateExecStream 0 none none) =
          some (after, mutation) ∧ ¬ ShortensFirst written after := by
  have hstreams := small_and_large_streams hn
  have hfit : ends (small_and_large n).records + 0 ≤ U64_MAX := by
    rw [small_and_large_ends hn]
    omega
  obtain ⟨m⟩ : Nonempty (OutputMoves 0 (small_and_large n) (.UpdateExecStream 0 none none)) :=
    (small_and_large_finds n none none).output_moves
  obtain ⟨⟨after, mutation⟩, hafter⟩ := m.returns hstreams ⟨nofun, nofun⟩
  obtain ⟨written, hwritten, hlimit⟩ := limit_after_output m (small_and_large_reached hn) hstreams
    (output_bytes_step hfit) hafter
  refine ⟨written, after, mutation, hwritten, hafter, ?_⟩
  have hrecords : written.records = (small_and_large n).records := by
    obtain rfl := Option.some.inj hwritten
    rfl
  obtain ⟨small, large, hsmall, hlarge, htarget, hkept⟩ : ∃ small large : ExecRecord Unit,
      written.records[0]? = some (.Exec small) ∧ written.records[1]? = some (.Exec large) ∧
        AtTarget small ∧ retained_stream_len large.stdout_chunks = n := by
    rw [hrecords]
    refine ⟨_, _, rfl, rfl, ⟨?_, Nat.zero_le _⟩, retained_output_of (Nat.le_of_lt hn)⟩
    exact Nat.le_trans (Nat.le_of_eq (retained_output_of (n := 1) (by decide))) (by decide)
  intro hfirst
  apply hfirst 0 1 small large Nat.zero_lt_one hsmall hlarge
  · -- With the large command as it was the limit would not hold.
    intro hsame
    rw [hlarge] at hsame
    apply not_within_of_mem (List.mem_of_getElem? hsame) _ hlimit.limit
    rw [hkept]
    exact hover
  · rw [hsmall]
    exact hlimit.keeps_small hsmall htarget

/-- Once the total has saturated, it stays so. -/
theorem push_saturated {s : HistoryState Unit} {chunks : List ExecStreamChunk}
    (hfull : s.exec_stream_retained_total_bytes = U64_MAX) (hid : s.next_id ≠ 0)
    (hnew : s.exec_stream_retained_by_id.lookup s.next_id = none) :
    (s.push (command chunks)).1.exec_stream_retained_total_bytes = U64_MAX := by
  show (set_exec_stream_retained _ s.next_id
    (saturating_add (retained_stream_len chunks) 0)).exec_stream_retained_total_bytes = U64_MAX
  unfold set_exec_stream_retained
  rw [if_neg hid]
  dsimp only [next_history_id]
  rw [hnew, Option.getD_none, hfull]
  unfold saturating_add
  split <;> omega

/-- A command of `n` bytes and one without output, after a command that saturated the total. -/
def after_saturated (n : Nat) : HistoryState Unit :=
  (((HistoryState.new.push (command far_output)).1.push (command (output_of n))).1.push
    (command [])).1

/-- The same without the first command. -/
def saturated_removed (n : Nat) : HistoryState Unit := ((after_saturated n).remove 0).1

theorem after_saturated_total (n : Nat) :
    (after_saturated n).exec_stream_retained_total_bytes = U64_MAX := by
  have hfar : ((HistoryState.new (β := Unit)).push
      (command far_output)).1.exec_stream_retained_total_bytes = U64_MAX := by
    decide +kernel
  apply push_saturated (push_saturated hfar _ rfl) _ rfl
  · show 2 ≠ 0
    decide
  · show 3 ≠ 0
    decide

theorem saturated_removed_total (n : Nat) :
    (saturated_removed n).exec_stream_retained_total_bytes = 0 := by
  show (after_saturated n).exec_stream_retained_total_bytes - U64_MAX = 0
  rw [after_saturated_total, Nat.sub_self]

theorem saturated_removed_reached (n : Nat) :
    Reached step HistoryState.new (fun _ _ => True) (saturated_removed n) :=
  .step (a := .remove 0) (.step (a := .push (command []))
    (.step (a := .push (command (output_of n))) (.step (a := .push (command far_output))
      .start trivial rfl) trivial rfl) trivial rfl) trivial rfl

theorem saturated_removed_streams (h : n ≤ U64_MAX) : ContiguousAscii (saturated_removed n) := by
  intro exec hmem
  have hrecords : (saturated_removed n).records =
      [(command (output_of n)).with_id 2, (command []).with_id 3] := rfl
  rw [hrecords] at hmem
  rcases List.mem_pair.mp hmem with heq | heq
  · exact command_contiguous_ascii (output_of_contiguous h) (output_of_ascii n) heq
  · exact command_contiguous_ascii no_output_contiguous nofun heq

theorem set_retained_zero_total (s : HistoryState β) (id : Nat) :
    (s.set_exec_stream_retained id 0).exec_stream_retained_total_bytes ≤
      s.exec_stream_retained_total_bytes := by
  unfold set_exec_stream_retained
  split
  · exact Nat.le_refl _
  · dsimp only
    rw [if_neg (Nat.not_lt_zero _)]
    exact Nat.sub_le _ _

/-- An event without chunks on a command without output changes no record while the total is within
the limit. -/
theorem not_enforced (now index : Nat) {s : HistoryState β} {exec : ExecRecord β}
    (hget : s.records[index]? = some (.Exec exec)) (hempty : retained_exec_record_bytes exec = 0)
    (hwithin : s.exec_stream_retained_total_bytes ≤ GLOBAL_EXEC_STREAM_RETAINED_BYTES) :
    ∃ after mutation, s.apply_domain_event now (.UpdateExecStream index none none) =
      some (after, mutation) ∧ after.records = s.records := by
  have hset : s.records.set index (.Exec exec) = s.records := by
    obtain ⟨hlt, heq⟩ := List.getElem?_eq_some_iff.mp hget
    rw [← heq, List.set_getElem_self]
  have hupdate : s.apply_domain_event now (.UpdateExecStream index none none) =
      ((s.set_exec_stream_retained exec.id 0).enforce_exec_stream_global_limit).map
        fun t => t.replaced_at index exec.id := by
    show s.update_exec_stream index none none = _
    unfold update_exec_stream
    simp only [hget, append_output, append_optional, Option.bind_eq_bind, Option.bind_some, hset,
      hempty]
    rw [Option.map_eq_bind]
    rfl
  have hrest : (s.set_exec_stream_retained exec.id 0).enforce_exec_stream_global_limit =
      some (s.set_exec_stream_retained exec.id 0) :=
    if_pos (Nat.le_trans (set_retained_zero_total s exec.id) hwithin)
  have hrecords : (s.set_exec_stream_retained exec.id 0).records = s.records :=
    set_retained_records_eq s exec.id 0
  refine ⟨_, _, hupdate.trans (by rw [hrest]; rfl), ?_⟩
  split <;> exact hrecords

/-- After bytes that the total does not count, an event on a command leaves the history over the
limit. -/
theorem uncounted_over_limit (hn : n ≤ U64_MAX) (hover : GLOBAL_EXEC_STREAM_RETAINED_BYTES < n) :
    ∃ after mutation, (saturated_removed n).apply_domain_event 0 (.UpdateExecStream 1 none none) =
      some (after, mutation) ∧ ¬ WithinLimit after := by
  have hwithin : (saturated_removed n).exec_stream_retained_total_bytes ≤
      GLOBAL_EXEC_STREAM_RETAINED_BYTES := by
    rw [saturated_removed_total]
    exact Nat.zero_le _
  obtain ⟨after, mutation, hafter, hrecords⟩ :=
    not_enforced 0 1 rfl rfl hwithin
  refine ⟨after, mutation, hafter, ?_⟩
  obtain ⟨large, hlarge, hkept⟩ : ∃ large : ExecRecord Unit,
      after.records[0]? = some (.Exec large) ∧ retained_stream_len large.stdout_chunks = n := by
    rw [hrecords]
    exact ⟨_, rfl, retained_output_of hn⟩
  apply not_within_of_mem (List.mem_of_getElem? hlarge)
  rw [hkept]
  exact hover

end exceeding


/-- The limit does not hold after an event that finds no command, it does not shorten the first
commands of all, and after bytes that the total does not count it is not enforced. -/
theorem limit_is_not_always_enforced :
    Reached step HistoryState.new bytes_step (small_and_large one_over) ∧
      ContiguousAscii (small_and_large one_over) ∧
      (∃ mutation, (small_and_large one_over).apply_domain_event 0 (.UpdateExecStream 2 none none) =
        some (small_and_large one_over, mutation) ∧ ¬ WithinLimit (small_and_large one_over)) ∧
      (∃ written after mutation,
        before_limit 0 (small_and_large one_over) (.UpdateExecStream 0 none none) = some written ∧
          (small_and_large one_over).apply_domain_event 0 (.UpdateExecStream 0 none none) =
            some (after, mutation) ∧ ¬ ShortensFirst written after) ∧
      Reached step HistoryState.new (fun _ _ => True) (saturated_removed one_over) ∧
      ContiguousAscii (saturated_removed one_over) ∧
      ∃ after mutation,
        (saturated_removed one_over).apply_domain_event 0 (.UpdateExecStream 1 none none) =
          some (after, mutation) ∧ ¬ WithinLimit after := by
  have hn : one_over < U64_MAX := by decide
  have hover : GLOBAL_EXEC_STREAM_RETAINED_BYTES < one_over := Nat.lt_succ_self _
  refine ⟨small_and_large_reached hn, small_and_large_streams hn, ?_, ?_,
    saturated_removed_reached one_over, saturated_removed_streams (Nat.le_of_lt hn), ?_⟩
  · exact noop_over_limit (Nat.le_of_lt hn) hover
  · exact large_alone_shortened hn hover
  · exact uncounted_over_limit (Nat.le_of_lt hn) hover

end Ecode.history
