-- The output streams of a command (core/src/history/state.rs): chunks at byte
-- offsets, appended at the end and pruned from the front.
import Ecode.TextCuts

namespace Ecode.history

/-- The largest `usize` and `u64`. -/
def U64_MAX : Nat := 2 ^ 64 - 1

def saturating_add (a b : Nat) : Nat := min (a + b) U64_MAX

structure ExecStreamChunk where
  offset : Nat
  content : Text
  deriving DecidableEq, Repr

/-- The byte where a chunk ends. -/
def ExecStreamChunk.stop (chunk : ExecStreamChunk) : Nat :=
  saturating_add chunk.offset (Text.len chunk.content)

def stream_len (chunks : List ExecStreamChunk) : Nat :=
  (chunks.map ExecStreamChunk.stop).foldr max 0

def retained_stream_len (chunks : List ExecStreamChunk) : Nat :=
  match chunks with
  | [] => 0
  | first :: _ => stream_len chunks - first.offset

/-- The loop of `truncate_exec_stream`, from the last chunk to the first. `String::truncate`
panics inside of a character. -/
def truncate_last (truncate_at : Nat) : List ExecStreamChunk → Option (List ExecStreamChunk)
  | [] => some []
  | last :: rest =>
    if truncate_at ≥ last.stop then some (last :: rest)
    else if truncate_at ≤ last.offset then truncate_last truncate_at rest
    else (Text.cut (truncate_at - last.offset) last.content).map fun (content, _) =>
      { last with content } :: rest

def truncate_exec_stream (chunks : List ExecStreamChunk) (truncate_at : Nat) :
    Option (List ExecStreamChunk) :=
  (truncate_last truncate_at chunks.reverse).map List.reverse

/-- The loop of `prune_exec_stream`: whole chunks from the front, and then a part of the next.
`String::drain` panics inside of a character. -/
def drop_bytes (bytes_to_drop : Nat) : List ExecStreamChunk → Option (List ExecStreamChunk)
  | [] => some []
  | first :: rest =>
    if bytes_to_drop ≥ Text.len first.content then
      drop_bytes (bytes_to_drop - Text.len first.content) rest
    else if bytes_to_drop > 0 then
      (Text.cut bytes_to_drop first.content).map fun (_, content) =>
        ⟨saturating_add first.offset bytes_to_drop, content⟩ :: rest
    else some (first :: rest)

def prune_exec_stream (chunks : List ExecStreamChunk) (max_bytes : Nat) :
    Option (List ExecStreamChunk) :=
  let retained := retained_stream_len chunks
  if retained ≤ max_bytes then some chunks else drop_bytes (retained - max_bytes) chunks

def MAX_EXEC_STREAM_RETAINED_BYTES : Nat := 32 * 1024 * 1024

/-- The chunks with one more at the end: joined to the last one when it starts where that one
stops. -/
def join_chunk (chunks : List ExecStreamChunk) (chunk : ExecStreamChunk) : List ExecStreamChunk :=
  match chunks.getLast? with
  | some last =>
    if chunk.offset = last.stop then
      chunks.dropLast ++ [{ last with content := last.content ++ chunk.content }]
    else chunks ++ [chunk]
  | none => chunks ++ [chunk]

def append_exec_chunk (chunks : List ExecStreamChunk) (chunk : ExecStreamChunk) :
    Option (List ExecStreamChunk) := do
  let chunks ← truncate_exec_stream chunks chunk.offset
  prune_exec_stream (join_chunk chunks chunk) MAX_EXEC_STREAM_RETAINED_BYTES

example : append_exec_chunk [⟨0, "ab".toList⟩] ⟨1, "xyz".toList⟩ = some [⟨0, "axyz".toList⟩] := by
  decide

/-! ## The end of a stream -/

theorem stream_len_cons (chunk : ExecStreamChunk) (chunks : List ExecStreamChunk) :
    stream_len (chunk :: chunks) = max chunk.stop (stream_len chunks) := rfl

theorem stream_len_append (xs ys : List ExecStreamChunk) :
    stream_len (xs ++ ys) = max (stream_len xs) (stream_len ys) := by
  induction xs with
  | nil => simp [stream_len]
  | cons x xs ih => simp only [List.cons_append, stream_len_cons, ih, max_assoc]

theorem stream_len_reverse (chunks : List ExecStreamChunk) :
    stream_len chunks.reverse = stream_len chunks := by
  induction chunks with
  | nil => rfl
  | cons x xs ih =>
    rw [List.reverse_cons, stream_len_append, ih, stream_len_cons, stream_len_cons]
    simp [stream_len, max_comm]

theorem retained_le_stream_len (chunks : List ExecStreamChunk) :
    retained_stream_len chunks ≤ stream_len chunks := by
  unfold retained_stream_len
  split
  · omega
  · omega

theorem truncate_last_len {n : Nat} {chunks chunks' : List ExecStreamChunk}
    (h : truncate_last n chunks = some chunks') : stream_len chunks' ≤ stream_len chunks := by
  induction chunks generalizing chunks' with
  | nil =>
    obtain rfl : [] = chunks' := by simpa [truncate_last] using h
    exact le_refl _
  | cons last rest ih =>
    simp only [truncate_last] at h
    split at h
    · obtain rfl := Option.some.inj h
      exact le_refl _
    · split at h
      · rw [stream_len_cons]
        have := ih h
        omega
      · obtain ⟨p, hp, rfl⟩ := Option.map_eq_some_iff.mp h
        obtain ⟨h1, h2⟩ := Text.cut_len hp
        simp only [stream_len_cons, ExecStreamChunk.stop, saturating_add]
        omega

theorem drop_bytes_len {n : Nat} {chunks chunks' : List ExecStreamChunk}
    (h : drop_bytes n chunks = some chunks') : stream_len chunks' ≤ stream_len chunks := by
  induction chunks generalizing n chunks' with
  | nil =>
    obtain rfl : [] = chunks' := by simpa [drop_bytes] using h
    exact le_refl _
  | cons first rest ih =>
    simp only [drop_bytes] at h
    split at h
    · rw [stream_len_cons]
      have := ih h
      omega
    · split at h
      · obtain ⟨p, hp, rfl⟩ := Option.map_eq_some_iff.mp h
        obtain ⟨h1, h2⟩ := Text.cut_len hp
        simp only [stream_len_cons, ExecStreamChunk.stop, saturating_add]
        omega
      · obtain rfl := Option.some.inj h
        exact le_refl _

/-- Pruning moves no end of a stream forward. -/
theorem prune_exec_stream_len {chunks chunks' : List ExecStreamChunk} {max_bytes : Nat}
    (h : prune_exec_stream chunks max_bytes = some chunks') :
    stream_len chunks' ≤ stream_len chunks := by
  unfold prune_exec_stream at h
  dsimp only at h
  split at h
  · obtain rfl := Option.some.inj h
    exact le_refl _
  · exact drop_bytes_len h

/-- A chunk is joined to the last one, or stands after it. -/
theorem join_chunk_cases (chunks : List ExecStreamChunk) (chunk : ExecStreamChunk) :
    join_chunk chunks chunk = chunks ++ [chunk] ∨
      ∃ front last, chunks = front ++ [last] ∧ chunk.offset = last.stop ∧
        join_chunk chunks chunk =
          front ++ [{ last with content := last.content ++ chunk.content }] := by
  unfold join_chunk
  split
  · next last hlast =>
    split
    · next hjoin =>
      obtain ⟨front, rfl⟩ := List.getLast?_eq_some_iff.mp hlast
      rw [List.dropLast_concat]
      exact .inr ⟨front, last, rfl, hjoin, rfl⟩
    · exact .inl rfl
  · exact .inl rfl

theorem join_chunk_len (chunks : List ExecStreamChunk) (chunk : ExecStreamChunk) :
    stream_len (join_chunk chunks chunk) ≤
      max (stream_len chunks) (chunk.offset + Text.len chunk.content) := by
  rcases join_chunk_cases chunks chunk with hpush | ⟨front, last, rfl, hjoin, heq⟩
  · rw [hpush]
    simp only [stream_len_append, stream_len_cons, ExecStreamChunk.stop, saturating_add]
    simp only [stream_len, List.map_nil, List.foldr_nil]
    omega
  · rw [heq]
    simp only [ExecStreamChunk.stop, saturating_add] at hjoin
    simp only [stream_len_append, stream_len_cons, ExecStreamChunk.stop, saturating_add,
      Text.len_append]
    simp only [stream_len, List.map_nil, List.foldr_nil]
    omega

/-- The end of a stream after an append: not past the old end or the end of the new chunk. -/
theorem append_exec_chunk_len {chunks chunks' : List ExecStreamChunk} {chunk : ExecStreamChunk}
    (h : append_exec_chunk chunks chunk = some chunks') :
    stream_len chunks' ≤ max (stream_len chunks) (chunk.offset + Text.len chunk.content) := by
  obtain ⟨cut, hcut, hprune⟩ := Option.bind_eq_some_iff.mp h
  obtain ⟨rev, hrev, rfl⟩ := Option.map_eq_some_iff.mp hcut
  have h1 := truncate_last_len hrev
  have h2 := prune_exec_stream_len hprune
  have h3 := join_chunk_len rev.reverse chunk
  rw [stream_len_reverse] at h1 h3
  omega

end Ecode.history
