-- The streams of a command's output under any writes (core/src/history/state.rs): chunks stay in
-- order, cut and pruned streams too, and with characters of one byte no write panics.
import Ecode.ExecStreamTail
import Ecode.HistoryMoves

namespace Ecode.history

open HistoryState

/-! ## Chunks in order -/

section order

variable {R : Nat → Nat → Prop} {chunks chunks' : List ExecStreamChunk} {chunk : ExecStreamChunk}

/-- What is left of a stream before a byte is in order, and ends there or before. -/
theorem truncate_last_spaced {n : Nat} (h : Spaced R chunks.reverse)
    (hcut : truncate_last n chunks = some chunks') :
    Spaced R chunks'.reverse ∧ ∀ last ∈ chunks'.head?, last.next ≤ n := by
  induction chunks with
  | nil =>
    cases hcut
    exact ⟨h, nofun⟩
  | cons last rest ih =>
    rw [List.reverse_cons, spaced_concat_iff] at h
    obtain ⟨hrest, hfits, hborder⟩ := h
    rw [truncate_last] at hcut
    split at hcut
    · next hstop =>
      cases hcut
      rw [List.reverse_cons, spaced_concat_iff]
      refine ⟨⟨hrest, hfits, hborder⟩, ?_⟩
      rintro _ ⟨⟩
      rwa [stop_eq hfits] at hstop
    · next hstop =>
      rw [stop_eq hfits] at hstop
      split at hcut
      · exact ih hrest hcut
      · next hoffset =>
        obtain ⟨p, hp, rfl⟩ := Option.map_eq_some_iff.mp hcut
        have hnext : ({ last with content := p.1 } : ExecStreamChunk).next = n := by
          have hlen := (Text.cut_len hp).1
          unfold ExecStreamChunk.next
          dsimp only
          omega
        rw [List.reverse_cons, spaced_concat_iff]
        refine ⟨⟨hrest, ?_, hborder⟩, ?_⟩
        · omega
        · rintro _ ⟨⟩
          exact Nat.le_of_eq hnext

theorem truncate_exec_stream_spaced {n : Nat} (h : Spaced R chunks)
    (hcut : truncate_exec_stream chunks n = some chunks') :
    Spaced R chunks' ∧ ∀ last ∈ chunks'.getLast?, last.next ≤ n := by
  obtain ⟨kept, hkept, rfl⟩ := Option.map_eq_some_iff.mp hcut
  rw [← List.reverse_reverse chunks] at h
  obtain ⟨hspaced, hlast⟩ := truncate_last_spaced h hkept
  rw [List.getLast?_reverse]
  exact ⟨hspaced, hlast⟩

theorem prune_exec_stream_spaced {max_bytes : Nat} (h : Spaced R chunks)
    (hprune : prune_exec_stream chunks max_bytes = some chunks') : Spaced R chunks' := by
  unfold prune_exec_stream at hprune
  dsimp only at hprune
  split at hprune
  · obtain rfl := Option.some.inj hprune
    exact h
  · exact drop_bytes_spaced h hprune

/-- Wherever a chunk starts, the stream is in order after it. -/
theorem append_exec_chunk_in_order (h : InOrder chunks) (hfits : chunk.next ≤ U64_MAX)
    (happend : append_exec_chunk chunks chunk = some chunks') : InOrder chunks' := by
  obtain ⟨cut, hcut, hprune⟩ := Option.bind_eq_some_iff.mp happend
  obtain ⟨hspaced, hlast⟩ := truncate_exec_stream_spaced h hcut
  exact prune_exec_stream_spaced (join_chunk_spaced hspaced hfits hlast) hprune

/-- A pruned stream keeps no more than the limit, also where bytes are missing between chunks. -/
theorem retained_prune_le {max_bytes : Nat} (h : InOrder chunks)
    (hprune : prune_exec_stream chunks max_bytes = some chunks') :
    retained_stream_len chunks' ≤ max_bytes := by
  unfold prune_exec_stream at hprune
  dsimp only at hprune
  split at hprune
  · obtain rfl := Option.some.inj hprune
    assumption
  · next hover =>
    have hlen := drop_bytes_len hprune
    have hoffset := drop_bytes_offset (fun a => Nat.le_refl a) (fun _ _ _ => Nat.le_trans)
      (fun _ _ k hle => Nat.add_le_add_right hle k) h hprune
    cases chunks with
    | nil => exact absurd (Nat.zero_le _) hover
    | cons first rest =>
      cases chunks' with
      | nil => exact Nat.zero_le _
      | cons first' rest' =>
        have hfirst := hoffset first rfl first' rfl
        simp only [retained_stream_len] at hover hfirst ⊢
        omega

end order

/-! ## Characters of one byte -/

section ascii

variable {chunks : List ExecStreamChunk} {chunk : ExecStreamChunk}

/-- All texts of a stream have characters of one byte. -/
def AsciiChunks (chunks : List ExecStreamChunk) : Prop := ∀ chunk ∈ chunks, Ascii chunk.content

theorem Ascii.take {t : Text} (h : Ascii t) (n : Nat) : Ascii (t.take n) :=
  fun c hc => h c (List.mem_of_mem_take hc)

theorem truncate_last_ascii (h : AsciiChunks chunks) (n : Nat) :
    ∃ kept, truncate_last n chunks = some kept ∧ AsciiChunks kept := by
  induction chunks with
  | nil => exact ⟨[], rfl, h⟩
  | cons last rest ih =>
    obtain ⟨hlast, hrest⟩ := List.forall_mem_cons.mp h
    rw [truncate_last]
    split
    · exact ⟨_, rfl, h⟩
    · next hstop =>
      split
      · exact ih hrest
      · have hle : n - last.offset ≤ Text.len last.content := by
          unfold ExecStreamChunk.stop saturating_add at hstop
          omega
        rw [hlast.cut hle]
        exact ⟨_, rfl, List.forall_mem_cons.mpr ⟨hlast.take _, hrest⟩⟩

theorem prune_exec_stream_returns (h : AsciiChunks chunks) (max_bytes : Nat) :
    ∃ kept, prune_exec_stream chunks max_bytes = some kept ∧ AsciiChunks kept := by
  unfold prune_exec_stream
  dsimp only
  split
  · exact ⟨_, rfl, h⟩
  · obtain ⟨kept, hdrop, -, hascii⟩ := drop_bytes_ascii h _
    exact ⟨kept, hdrop, hascii⟩

theorem append_exec_chunk_ascii (h : AsciiChunks chunks) (hchunk : Ascii chunk.content) :
    ∃ kept, append_exec_chunk chunks chunk = some kept ∧ AsciiChunks kept := by
  have hreverse : AsciiChunks chunks.reverse := fun c hc => h c (List.mem_reverse.mp hc)
  obtain ⟨cut, hcut, hkept⟩ := truncate_last_ascii hreverse chunk.offset
  have hfront : AsciiChunks cut.reverse := fun c hc => hkept c (List.mem_reverse.mp hc)
  have hjoined := join_chunk_ascii hfront hchunk
  rw [append_exec_chunk, truncate_exec_stream, hcut, Option.map_some, Option.bind_eq_bind,
    Option.bind_some]
  apply prune_exec_stream_returns
  exact hjoined

end ascii

/-! ## The streams of a command -/

section command

variable {β : Type} {exec exec' : ExecRecord β} {out err : Option ExecStreamChunk}

/-- Both streams are in order. -/
def StreamsInOrder (exec : ExecRecord β) : Prop :=
  InOrder exec.stdout_chunks ∧ InOrder exec.stderr_chunks

def StreamsAscii (exec : ExecRecord β) : Prop :=
  AsciiChunks exec.stdout_chunks ∧ AsciiChunks exec.stderr_chunks

theorem append_optional_in_order {chunks chunks' : List ExecStreamChunk}
    {chunk : Option ExecStreamChunk} (h : InOrder chunks)
    (hfits : ∀ c ∈ chunk, c.next ≤ U64_MAX) (happend : append_optional chunks chunk = some chunks') :
    InOrder chunks' := by
  cases chunk with
  | none =>
    obtain rfl := Option.some.inj happend
    exact h
  | some chunk => exact append_exec_chunk_in_order h (hfits chunk rfl) happend

theorem append_output_in_order (h : StreamsInOrder exec) (hout : ∀ c ∈ out, c.next ≤ U64_MAX)
    (herr : ∀ c ∈ err, c.next ≤ U64_MAX) (happend : append_output exec out err = some exec') :
    StreamsInOrder exec' := by
  obtain ⟨stdout_chunks, stderr_chunks, hstdout, hstderr, rfl⟩ := append_output_some happend
  exact ⟨append_optional_in_order h.1 hout hstdout, append_optional_in_order h.2 herr hstderr⟩

theorem append_optional_ascii {chunks : List ExecStreamChunk} {chunk : Option ExecStreamChunk}
    (h : AsciiChunks chunks) (hchunk : ∀ c ∈ chunk, Ascii c.content) :
    ∃ kept, append_optional chunks chunk = some kept ∧ AsciiChunks kept := by
  cases chunk with
  | none => exact ⟨chunks, rfl, h⟩
  | some chunk => exact append_exec_chunk_ascii h (hchunk chunk rfl)

theorem append_output_ascii (h : StreamsAscii exec) (hout : ∀ c ∈ out, Ascii c.content)
    (herr : ∀ c ∈ err, Ascii c.content) :
    ∃ updated, append_output exec out err = some updated ∧ StreamsAscii updated := by
  obtain ⟨stdout_chunks, hstdout, hout⟩ := append_optional_ascii h.1 hout
  obtain ⟨stderr_chunks, hstderr, herr⟩ := append_optional_ascii h.2 herr
  refine ⟨{ exec with stdout_chunks, stderr_chunks }, ?_, hout, herr⟩
  rw [append_output, hstdout, hstderr]
  rfl

end command

end Ecode.history
