-- The output that a session of unified exec holds for the next poll
-- (core/src/unified_exec/mod.rs): chunks as they were read, cut at the front to a limit.
import Ecode.ExecStreams

namespace Ecode.unified_exec

open history (saturating_add U64_MAX)

def UNIFIED_EXEC_OUTPUT_MAX_BYTES : Nat := 128 * 1024

/-- `isize::MAX`. -/
def ISIZE_MAX : Nat := 2 ^ 63 - 1

/-- A `Vec<u8>`, which never holds more bytes than `isize::MAX`. -/
structure Chunk where
  bytes : List UInt8
  fits : bytes.length ≤ ISIZE_MAX

structure OutputBufferState where
  chunks : List (List UInt8) := []
  total_bytes : Nat := 0
  deriving DecidableEq, Repr

/-- The loop of `push_chunk`, with what `excess` still asks to drop. -/
def drop_excess (excess : Nat) (total_bytes : Nat) : List (List UInt8) → OutputBufferState
  | [] => { chunks := [], total_bytes := total_bytes }
  | front :: rest =>
    if excess = 0 then { chunks := front :: rest, total_bytes := total_bytes }
    else if front.length ≤ excess then
      drop_excess (excess - front.length) (total_bytes - front.length) rest
    else { chunks := front.drop excess :: rest, total_bytes := total_bytes - excess }

namespace OutputBufferState

def push_chunk (self : OutputBufferState) (chunk : List UInt8) : OutputBufferState :=
  let total_bytes := saturating_add self.total_bytes chunk.length
  drop_excess (total_bytes - UNIFIED_EXEC_OUTPUT_MAX_BYTES) total_bytes (self.chunks ++ [chunk])

/-- The buffer after `drain`, and the chunks that it returns. -/
def drain (self : OutputBufferState) : OutputBufferState × List (List UInt8) :=
  ({}, self.chunks)

end OutputBufferState

/-! ## The tail of what was pushed -/

/-- The last bytes of all, `n` of them. -/
def last_bytes (n : Nat) (bytes : List UInt8) : List UInt8 := bytes.drop (bytes.length - n)

/-- The buffer holds the end of the bytes that were pushed, as much as the limit allows. -/
structure Holds (buffer : OutputBufferState) (pushed : List UInt8) : Prop where
  tail : buffer.chunks.flatten =
    last_bytes (min pushed.length UNIFIED_EXEC_OUTPUT_MAX_BYTES) pushed
  counted : buffer.total_bytes = (buffer.chunks.map List.length).sum

/-- What is dropped is at the front of all the bytes. -/
theorem drop_excess_flatten (excess total_bytes : Nat) (chunks : List (List UInt8)) :
    (drop_excess excess total_bytes chunks).chunks.flatten = chunks.flatten.drop excess := by
  induction chunks generalizing excess total_bytes with
  | nil => simp [drop_excess]
  | cons front rest ih =>
    unfold drop_excess
    split
    · next hzero =>
      subst hzero
      rfl
    · split
      · next hfront =>
        rw [ih, List.flatten_cons, List.drop_append, List.drop_of_length_le hfront, List.nil_append]
      · next hfront =>
        rw [List.flatten_cons, List.flatten_cons]
        rw [List.drop_append_of_le_length (by omega)]

/-- The counter follows what is dropped. -/
theorem drop_excess_counted {excess total_bytes : Nat} {chunks : List (List UInt8)}
    (h : total_bytes = (chunks.map List.length).sum) :
    (drop_excess excess total_bytes chunks).total_bytes =
      ((drop_excess excess total_bytes chunks).chunks.map List.length).sum := by
  induction chunks generalizing excess total_bytes with
  | nil => simpa [drop_excess] using h
  | cons front rest ih =>
    rw [List.map_cons, List.sum_cons] at h
    unfold drop_excess
    split
    · simpa using h
    · split
      · apply ih
        omega
      · simp only [List.map_cons, List.sum_cons, List.length_drop]
        omega

theorem holds_default : Holds {} [] where
  tail := rfl
  counted := rfl

theorem Holds.total {buffer : OutputBufferState} {pushed : List UInt8} (h : Holds buffer pushed) :
    buffer.total_bytes = min pushed.length UNIFIED_EXEC_OUTPUT_MAX_BYTES := by
  rw [h.counted, ← List.length_flatten, h.tail]
  unfold last_bytes
  rw [List.length_drop]
  omega

theorem Holds.push_chunk {buffer : OutputBufferState} {pushed : List UInt8}
    (h : Holds buffer pushed) (chunk : Chunk) :
    Holds (buffer.push_chunk chunk.bytes) (pushed ++ chunk.bytes) := by
  have htotal := h.total
  -- the counter and a chunk together stay far below `u64::MAX`
  have hadd : saturating_add buffer.total_bytes chunk.bytes.length =
      buffer.total_bytes + chunk.bytes.length := by
    have hfits := chunk.fits
    unfold ISIZE_MAX at hfits
    unfold UNIFIED_EXEC_OUTPUT_MAX_BYTES at htotal
    unfold saturating_add U64_MAX
    omega
  unfold OutputBufferState.push_chunk
  rw [hadd]
  constructor
  · rw [drop_excess_flatten, List.flatten_append, List.flatten_singleton, h.tail]
    unfold last_bytes
    -- the bytes that were dropped before and those that are dropped now
    have hdrop : pushed.length - min pushed.length UNIFIED_EXEC_OUTPUT_MAX_BYTES +
        (buffer.total_bytes + chunk.bytes.length - UNIFIED_EXEC_OUTPUT_MAX_BYTES) =
        pushed.length + chunk.bytes.length -
          min (pushed.length + chunk.bytes.length) UNIFIED_EXEC_OUTPUT_MAX_BYTES := by
      omega
    rw [← List.drop_append_of_le_length (by omega), List.drop_drop, hdrop, List.length_append]
  · apply drop_excess_counted
    rw [List.map_append, List.sum_append, ← h.counted]
    simp

/-! ## Sequences of operations -/

inductive Operation where
  | push_chunk (chunk : Chunk)
  | drain

def Operation.apply (buffer : OutputBufferState) : Operation → OutputBufferState
  | .push_chunk chunk => buffer.push_chunk chunk.bytes
  | .drain => buffer.drain.1

/-- The bytes that were pushed since the last drain. -/
def pushed_since_drain (operations : List Operation) : List UInt8 :=
  operations.foldl (fun pushed operation =>
    match operation with
    | .push_chunk chunk => pushed ++ chunk.bytes
    | .drain => []) []

theorem operations_hold (operations : List Operation) :
    Holds (operations.foldl Operation.apply {}) (pushed_since_drain operations) := by
  unfold pushed_since_drain
  induction operations using List.reverseRecOn with
  | nil => exact holds_default
  | append_singleton operations operation ih =>
    rw [List.foldl_append, List.foldl_append]
    cases operation with
    | push_chunk chunk => exact ih.push_chunk chunk
    | drain => exact holds_default

/-- A drain returns all that the buffer holds: the end of what was pushed since the drain before. -/
theorem drain_returns_tail (operations : List Operation) :
    (operations.foldl Operation.apply {}).drain.2.flatten =
      last_bytes (min (pushed_since_drain operations).length UNIFIED_EXEC_OUTPUT_MAX_BYTES)
        (pushed_since_drain operations) :=
  (operations_hold operations).tail

/-- After every sequence of operations the chunks are the end of what was pushed since the last
drain, as long as the limit allows, and the counter is the sum of their lengths. -/
theorem output_buffer_is_an_exact_tail (operations : List Operation) :
    let buffer := operations.foldl Operation.apply {}
    let pushed := pushed_since_drain operations
    buffer.chunks.flatten = last_bytes (min pushed.length UNIFIED_EXEC_OUTPUT_MAX_BYTES) pushed ∧
      buffer.total_bytes = (buffer.chunks.map List.length).sum := by
  intro buffer pushed
  have h : Holds buffer pushed := operations_hold operations
  exact ⟨h.tail, h.counted⟩

end Ecode.unified_exec
