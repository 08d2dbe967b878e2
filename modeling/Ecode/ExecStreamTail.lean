-- What a stream of a command's output keeps (core/src/history/state.rs): the last bytes of
-- all that was appended, in chunks that follow one another.
import Mathlib.Data.List.Chain
import Ecode.ExecStreams

namespace Ecode.history

/-! ## Texts of one byte a character -/

def Ascii (t : Text) : Prop := ∀ c ∈ t, c.toNat < 128

theorem utf8Size_of_ascii {c : Char} (h : c.toNat < 128) : c.utf8Size = 1 := by
  rw [Char.utf8Size_eq_one_iff]
  rw [UInt32.le_iff_toNat_le]
  exact Nat.le_of_lt_succ h

theorem Ascii.tail {c : Char} {t : Text} (h : Ascii (c :: t)) : Ascii t :=
  fun d hd => h d (List.mem_cons_of_mem _ hd)

theorem Ascii.append {t u : Text} (ht : Ascii t) (hu : Ascii u) : Ascii (t ++ u) := by
  intro c hc
  rcases List.mem_append.mp hc with hc | hc
  · exact ht c hc
  · exact hu c hc

theorem Ascii.drop {t : Text} (h : Ascii t) (n : Nat) : Ascii (t.drop n) :=
  fun c hc => h c (List.mem_of_mem_drop hc)

theorem Ascii.len {t : Text} (h : Ascii t) : Text.len t = t.length := by
  induction t with
  | nil => rfl
  | cons c t ih =>
    rw [Text.len_cons, utf8Size_of_ascii (h c List.mem_cons_self), ih h.tail, List.length_cons]
    omega

theorem Ascii.cut {t : Text} (h : Ascii t) {n : Nat} (hn : n ≤ Text.len t) :
    Text.cut n t = some (t.take n, t.drop n) := by
  induction t generalizing n with
  | nil =>
    obtain rfl := Nat.le_zero.mp hn
    rfl
  | cons c t ih =>
    have hc := utf8Size_of_ascii (h c List.mem_cons_self)
    cases n with
    | zero => rfl
    | succ n =>
      rw [Text.len_cons, hc] at hn
      rw [show n + 1 = c.utf8Size + n by omega, Text.cut_cons, ih h.tail (by omega), hc]
      simp [Nat.add_comm]

/-! ## Chunks that follow one another -/

/-- The text of a stream. -/
def output (chunks : List ExecStreamChunk) : Text := chunks.flatMap ExecStreamChunk.content

/-- The byte after a chunk, where no count of bytes saturates. -/
def ExecStreamChunk.next (chunk : ExecStreamChunk) : Nat := chunk.offset + Text.len chunk.content

/-- Every chunk ends at a byte position, and the next one stands to that end as `R` says. -/
structure Spaced (R : Nat → Nat → Prop) (chunks : List ExecStreamChunk) : Prop where
  fits : ∀ chunk ∈ chunks, chunk.next ≤ U64_MAX
  chain : chunks.IsChain fun a b => R a.next b.offset

/-- Each chunk starts where the last ends. -/
abbrev Contiguous : List ExecStreamChunk → Prop := Spaced (· = ·)

/-- Each chunk starts where the last ends or later. -/
abbrev InOrder : List ExecStreamChunk → Prop := Spaced (· ≤ ·)

theorem stop_eq {chunk : ExecStreamChunk} (h : chunk.next ≤ U64_MAX) : chunk.stop = chunk.next :=
  Nat.min_eq_left h

section spaced

variable {R : Nat → Nat → Prop} {chunks : List ExecStreamChunk}

theorem Spaced.nil : Spaced R [] := ⟨nofun, .nil⟩

theorem Spaced.singleton {chunk : ExecStreamChunk} (h : chunk.next ≤ U64_MAX) :
    Spaced R [chunk] := by
  refine ⟨?_, .singleton _⟩
  intro c hc
  rwa [List.mem_singleton.mp hc]

theorem Spaced.tail {first : ExecStreamChunk} {rest : List ExecStreamChunk}
    (h : Spaced R (first :: rest)) : Spaced R rest :=
  ⟨fun chunk hchunk => h.fits chunk (List.mem_cons_of_mem _ hchunk), h.chain.tail⟩

/-- The first chunk can be put back by one with the same end. -/
theorem Spaced.set_head {first first' : ExecStreamChunk} {rest : List ExecStreamChunk}
    (h : Spaced R (first :: rest)) (hnext : first'.next = first.next) :
    Spaced R (first' :: rest) := by
  constructor
  · intro chunk hchunk
    rcases List.mem_cons.mp hchunk with rfl | hchunk
    · rw [hnext]
      exact h.fits first List.mem_cons_self
    · exact h.fits chunk (List.mem_cons_of_mem _ hchunk)
  · have hchain := h.chain
    rw [List.isChain_cons] at hchain ⊢
    refine ⟨?_, hchain.2⟩
    intro second hsecond
    rw [hnext]
    exact hchain.1 second hsecond

/-- One more chunk at the end stands to the last one as `R` says. -/
theorem spaced_concat_iff {chunk : ExecStreamChunk} : Spaced R (chunks ++ [chunk]) ↔ Spaced R chunks ∧
    chunk.next ≤ U64_MAX ∧ ∀ last ∈ chunks.getLast?, R last.next chunk.offset := by
  constructor
  · intro h
    obtain ⟨hchain, -, hborder⟩ := List.isChain_append.mp h.chain
    refine ⟨⟨fun c hc => h.fits c (List.mem_append_left _ hc), hchain⟩,
      h.fits chunk (List.mem_append_right _ (List.mem_singleton_self _)), ?_⟩
    intro last hlast
    exact hborder last hlast chunk rfl
  · rintro ⟨h, hfits, hborder⟩
    constructor
    · intro c hc
      rcases List.mem_append.mp hc with hc | hc
      · exact h.fits c hc
      · rwa [List.mem_singleton.mp hc]
    · apply h.chain.append (.singleton _)
      rintro last hlast _ ⟨⟩
      exact hborder last hlast

theorem Contiguous.in_order (h : Contiguous chunks) : InOrder chunks :=
  ⟨h.fits, h.chain.imp fun _ _ heq => Nat.le_of_eq heq⟩

end spaced

/-! ## Dropping bytes from the front -/

section drop

variable {R : Nat → Nat → Prop} {chunks chunks' : List ExecStreamChunk} {n : Nat}

/-- A chunk without its first bytes. -/
theorem next_of_cut {first : ExecStreamChunk} {p : Text × Text}
    (hfits : first.next ≤ U64_MAX) (hn : n < Text.len first.content)
    (hcut : Text.cut n first.content = some p) :
    saturating_add first.offset n = first.offset + n ∧
      (⟨saturating_add first.offset n, p.2⟩ : ExecStreamChunk).next = first.next := by
  obtain ⟨hleft, hlen⟩ := Text.cut_len hcut
  unfold ExecStreamChunk.next at *
  have hadd : saturating_add first.offset n = first.offset + n := by
    unfold saturating_add
    omega
  refine ⟨hadd, ?_⟩
  dsimp only
  omega

theorem drop_bytes_spaced (h : Spaced R chunks) (hdrop : drop_bytes n chunks = some chunks') :
    Spaced R chunks' := by
  induction chunks generalizing n with
  | nil =>
    cases hdrop
    exact h
  | cons first rest ih =>
    rw [drop_bytes] at hdrop
    split at hdrop
    · exact ih h.tail hdrop
    · next hlt =>
      split at hdrop
      · obtain ⟨p, hcut, rfl⟩ := Option.map_eq_some_iff.mp hdrop
        exact h.set_head (next_of_cut (h.fits first List.mem_cons_self) (by omega) hcut).2
      · cases hdrop
        exact h

/-- Where the first chunk that stays stands to the bytes that are dropped: as the chunks stand
to one another. -/
theorem drop_bytes_offset (hrefl : ∀ a, R a a) (htrans : ∀ a b c, R a b → R b c → R a c)
    (hshift : ∀ a b k, R a b → R (a + k) (b + k)) (h : Spaced R chunks)
    (hdrop : drop_bytes n chunks = some chunks') :
    ∀ first ∈ chunks.head?, ∀ first' ∈ chunks'.head?, R (first.offset + n) first'.offset := by
  induction chunks generalizing n with
  | nil => nofun
  | cons first rest ih =>
    rintro _ ⟨⟩ first' hfirst'
    rw [drop_bytes] at hdrop
    split at hdrop
    · next hge =>
      cases rest with
      | nil =>
        cases hdrop
        cases hfirst'
      | cons second rest =>
        have hnext := (List.isChain_cons_cons.mp h.chain).1
        have hlater := ih h.tail hdrop second rfl first' hfirst'
        have hshifted := hshift _ _ (n - Text.len first.content) hnext
        rw [show first.next + (n - Text.len first.content) = first.offset + n by
          unfold ExecStreamChunk.next
          omega] at hshifted
        exact htrans _ _ _ hshifted hlater
    · next hlt =>
      split at hdrop
      · obtain ⟨p, hcut, rfl⟩ := Option.map_eq_some_iff.mp hdrop
        cases hfirst'
        rw [(next_of_cut (h.fits first List.mem_cons_self) (by omega) hcut).1]
        exact hrefl _
      · obtain rfl : n = 0 := by omega
        cases hdrop
        cases hfirst'
        exact hrefl _

/-- With characters of one byte no cut panics, and just the first `n` characters go. -/
theorem drop_bytes_ascii (hascii : ∀ chunk ∈ chunks, Ascii chunk.content) (n : Nat) :
    ∃ kept, drop_bytes n chunks = some kept ∧ output kept = (output chunks).drop n ∧
      ∀ chunk ∈ kept, Ascii chunk.content := by
  induction chunks generalizing n with
  | nil => exact ⟨[], rfl, by simp [output], nofun⟩
  | cons first rest ih =>
    rw [List.forall_mem_cons] at hascii
    have hlen := hascii.1.len
    have houtput : ∀ chunk : ExecStreamChunk,
        output (chunk :: rest) = chunk.content ++ output rest := fun _ => List.flatMap_cons
    rw [drop_bytes]
    split
    · next hge =>
      obtain ⟨kept, hdrop, htail, hkept⟩ := ih hascii.2 (n - Text.len first.content)
      refine ⟨kept, hdrop, ?_, hkept⟩
      have hnil : first.content.drop n = [] := List.drop_eq_nil_of_le (by omega)
      rw [htail, houtput, List.drop_append, hnil, List.nil_append, hlen]
    · next hlt =>
      split
      · refine ⟨_, by rw [hascii.1.cut (by omega)]; rfl, ?_, ?_⟩
        · rw [houtput, houtput, List.drop_append, Nat.sub_eq_zero_of_le (by omega),
            List.drop_zero]
        · rw [List.forall_mem_cons]
          exact ⟨hascii.1.drop n, hascii.2⟩
      · obtain rfl : n = 0 := by omega
        exact ⟨_, rfl, List.drop_zero.symm, List.forall_mem_cons.mpr hascii⟩

end drop

/-! ## A contiguous stream -/

section contiguous

variable {chunks : List ExecStreamChunk}

/-- The end of a contiguous stream. -/
theorem Contiguous.stream_len_eq {first : ExecStreamChunk} {rest : List ExecStreamChunk}
    (h : Contiguous (first :: rest)) :
    stream_len (first :: rest) = first.offset + Text.len (output (first :: rest)) := by
  have hstop := stop_eq (h.fits first List.mem_cons_self)
  induction rest generalizing first with
  | nil =>
    rw [stream_len_cons, hstop]
    simp [stream_len, output, ExecStreamChunk.next]
  | cons second rest ih =>
    have hnext := (List.isChain_cons_cons.mp h.chain).1
    have hrest := ih h.tail (stop_eq (h.tail.fits second List.mem_cons_self))
    have houtput : output (first :: second :: rest) = first.content ++ output (second :: rest) :=
      List.flatMap_cons
    rw [stream_len_cons, hrest, hstop, houtput, Text.len_append]
    unfold ExecStreamChunk.next at *
    omega

theorem Contiguous.retained_eq (h : Contiguous chunks) :
    retained_stream_len chunks = Text.len (output chunks) := by
  cases chunks with
  | nil => rfl
  | cons first rest =>
    unfold retained_stream_len
    dsimp only
    rw [h.stream_len_eq]
    omega

/-- Pruning a contiguous stream of such characters keeps its last bytes. -/
theorem prune_exec_stream_ascii (h : Contiguous chunks)
    (hascii : ∀ chunk ∈ chunks, Ascii chunk.content) (max_bytes : Nat) :
    ∃ kept, prune_exec_stream chunks max_bytes = some kept ∧ Contiguous kept ∧
      output kept = (output chunks).drop (Text.len (output chunks) - max_bytes) ∧
      (∀ chunk ∈ kept, Ascii chunk.content) ∧
      ∀ first ∈ chunks.head?, ∀ first' ∈ kept.head?,
        first'.offset = first.offset + (Text.len (output chunks) - max_bytes) := by
  unfold prune_exec_stream
  dsimp only
  rw [h.retained_eq]
  split
  · next hle =>
    refine ⟨chunks, rfl, h, ?_, hascii, ?_⟩
    · rw [Nat.sub_eq_zero_of_le hle, List.drop_zero]
    · rintro first hfirst first' hfirst'
      rw [hfirst] at hfirst'
      obtain rfl := Option.some.inj hfirst'
      rw [Nat.sub_eq_zero_of_le hle, Nat.add_zero]
  · obtain ⟨kept, hdrop, hout, hkept⟩ :=
      drop_bytes_ascii hascii (Text.len (output chunks) - max_bytes)
    refine ⟨kept, hdrop, drop_bytes_spaced h hdrop, hout, hkept, ?_⟩
    intro first hfirst first' hfirst'
    have hoffset := drop_bytes_offset (fun _ => rfl) (fun _ _ _ => Eq.trans)
      (fun _ _ k heq => congrArg (· + k) heq) h hdrop first hfirst first' hfirst'
    exact hoffset.symm

/-- The last chunk ends where the stream does. -/
theorem Contiguous.last_next {first : ExecStreamChunk} {rest : List ExecStreamChunk}
    (h : Contiguous (first :: rest)) {last : ExecStreamChunk}
    (hlast : (first :: rest).getLast? = some last) :
    last.next = first.offset + Text.len (output (first :: rest)) := by
  induction rest generalizing first with
  | nil =>
    obtain rfl : first = last := by simpa using hlast
    simp [output, ExecStreamChunk.next]
  | cons second rest ih =>
    have hnext := (List.isChain_cons_cons.mp h.chain).1
    have hrest := ih h.tail (by rwa [List.getLast?_cons_cons] at hlast)
    have houtput : output (first :: second :: rest) = first.content ++ output (second :: rest) :=
      List.flatMap_cons
    rw [hrest, houtput, Text.len_append]
    unfold ExecStreamChunk.next at hnext
    omega

end contiguous

/-! ## One more chunk -/

section append

variable {R : Nat → Nat → Prop} {chunks : List ExecStreamChunk} {chunk : ExecStreamChunk}

/-- Nothing is cut of a stream that ends where the new chunk starts. -/
theorem truncate_exec_stream_end {n : Nat} (h : ∀ last ∈ chunks.getLast?, last.stop ≤ n) :
    truncate_exec_stream chunks n = some chunks := by
  unfold truncate_exec_stream
  rw [← List.head?_reverse] at h
  cases hrev : chunks.reverse with
  | nil =>
    rw [List.reverse_eq_nil_iff.mp hrev]
    rfl
  | cons last rest =>
    rw [hrev] at h
    rw [truncate_last, if_pos (h last rfl), Option.map_some, ← hrev, List.reverse_reverse]

theorem join_chunk_spaced (h : Spaced R chunks) (hfits : chunk.next ≤ U64_MAX)
    (hlast : ∀ last ∈ chunks.getLast?, R last.next chunk.offset) :
    Spaced R (join_chunk chunks chunk) := by
  rcases join_chunk_cases chunks chunk with hpush | ⟨front, last, rfl, hstop, heq⟩
  · rw [hpush, spaced_concat_iff]
    exact ⟨h, hfits, hlast⟩
  · obtain ⟨hfront, hlast_fits, hborder⟩ := spaced_concat_iff.mp h
    rw [stop_eq hlast_fits] at hstop
    have hnext : ({ last with content := last.content ++ chunk.content } : ExecStreamChunk).next =
        chunk.next := by
      unfold ExecStreamChunk.next at hstop ⊢
      dsimp only
      rw [Text.len_append]
      omega
    rw [heq, spaced_concat_iff, hnext]
    exact ⟨hfront, hfits, hborder⟩

theorem output_append (xs ys : List ExecStreamChunk) :
    output (xs ++ ys) = output xs ++ output ys :=
  List.flatMap_append

theorem output_join_chunk (chunks : List ExecStreamChunk) (chunk : ExecStreamChunk) :
    output (join_chunk chunks chunk) = output chunks ++ chunk.content := by
  rcases join_chunk_cases chunks chunk with hpush | ⟨front, last, rfl, -, heq⟩
  · rw [hpush, output_append]
    simp [output]
  · rw [heq, output_append, output_append]
    simp [output]

/-- The first chunk stays where it is. -/
theorem head_join_chunk (chunks : List ExecStreamChunk) (chunk : ExecStreamChunk) :
    (join_chunk chunks chunk).head?.map ExecStreamChunk.offset =
      (chunks.head?.map ExecStreamChunk.offset).or (some chunk.offset) := by
  rcases join_chunk_cases chunks chunk with hpush | ⟨front, last, rfl, -, heq⟩
  · rw [hpush]
    cases chunks <;> rfl
  · rw [heq]
    cases front <;> rfl

theorem join_chunk_ascii (h : ∀ c ∈ chunks, Ascii c.content) (hchunk : Ascii chunk.content) :
    ∀ c ∈ join_chunk chunks chunk, Ascii c.content := by
  intro c hc
  rcases join_chunk_cases chunks chunk with hpush | ⟨front, last, rfl, -, heq⟩
  · rw [hpush] at hc
    rcases List.mem_append.mp hc with hc | hc
    · exact h c hc
    · rwa [List.mem_singleton.mp hc]
  · rw [heq] at hc
    rcases List.mem_append.mp hc with hc | hc
    · exact h c (List.mem_append_left _ hc)
    · rw [List.mem_singleton.mp hc]
      exact (h last (List.mem_append_right _ (List.mem_singleton_self _))).append hchunk

end append

/-! ## All that was appended -/

/-- What a stream keeps of the output of a command: its last bytes, as many as the limit lets
through, in chunks that follow one another. -/
structure TailKept (chunks : List ExecStreamChunk) (produced : Text) : Prop where
  tail : ∃ dropped, produced = dropped ++ output chunks
  length : Text.len (output chunks) =
    min (Text.len produced) MAX_EXEC_STREAM_RETAINED_BYTES
  first_offset : ∀ first ∈ chunks.head?,
    first.offset = Text.len produced - Text.len (output chunks)
  contiguous : chunks.IsChain fun a b => b.offset = a.next

/-- Output that is appended piece by piece: each piece at the byte where the last one ended. -/
def append_piece (state : List ExecStreamChunk × Nat) (piece : Text) :
    Option (List ExecStreamChunk × Nat) :=
  (append_exec_chunk state.1 ⟨state.2, piece⟩).map fun chunks =>
    (chunks, state.2 + Text.len piece)

def append_pieces (pieces : List Text) : Option (List ExecStreamChunk × Nat) :=
  pieces.foldlM append_piece ([], 0)

theorem append_pieces_concat (pieces : List Text) (piece : Text) :
    append_pieces (pieces ++ [piece]) =
      append_pieces pieces >>= fun state => append_piece state piece := by
  simp [append_pieces, List.foldlM_append]

/-- What holds of the stream after each piece. -/
structure Tailed (chunks : List ExecStreamChunk) (produced : Text) : Prop where
  contiguous : Contiguous chunks
  ascii : ∀ chunk ∈ chunks, Ascii chunk.content
  tail : output chunks =
    produced.drop (Text.len produced - MAX_EXEC_STREAM_RETAINED_BYTES)
  first : ∀ first ∈ chunks.head?,
    first.offset + Text.len (output chunks) = Text.len produced

theorem Tailed.nil : Tailed [] [] := ⟨Spaced.nil, nofun, rfl, nofun⟩

theorem Tailed.len_output {chunks : List ExecStreamChunk} {produced : Text}
    (h : Tailed chunks produced) (hascii : Ascii produced) : Text.len (output chunks) =
      min (Text.len produced) MAX_EXEC_STREAM_RETAINED_BYTES := by
  rw [h.tail, (hascii.drop _).len, List.length_drop, hascii.len]
  omega

theorem Tailed.tail_kept {chunks : List ExecStreamChunk} {produced : Text}
    (h : Tailed chunks produced) (hascii : Ascii produced) : TailKept chunks produced := by
  refine ⟨⟨produced.take (Text.len produced - MAX_EXEC_STREAM_RETAINED_BYTES), ?_⟩,
    h.len_output hascii, ?_, ?_⟩
  · rw [h.tail, List.take_append_drop]
  · intro first hfirst
    have hoffset := h.first first hfirst
    omega
  · exact h.contiguous.chain.imp fun _ _ heq => heq.symm

/-- The next piece starts where the stream ends, so nothing is cut of it. -/
theorem Tailed.last_next {chunks : List ExecStreamChunk} {produced : Text}
    (h : Tailed chunks produced) : ∀ last ∈ chunks.getLast?, last.next = Text.len produced := by
  intro last hmem
  cases chunks with
  | nil => cases hmem
  | cons first rest =>
    rw [h.contiguous.last_next hmem]
    exact h.first first rfl

theorem Tailed.truncate {chunks : List ExecStreamChunk} {produced : Text}
    (h : Tailed chunks produced) :
    truncate_exec_stream chunks (Text.len produced) = some chunks := by
  apply truncate_exec_stream_end
  intro last hmem
  rw [stop_eq (h.contiguous.fits last (List.mem_of_getLast? hmem)), h.last_next last hmem]

/-- What a text loses before more is appended and what both lose then. -/
theorem drop_drop_append {produced piece : Text} (limit : Nat) :
    (produced.drop (produced.length - limit) ++ piece).drop
        (min produced.length limit + piece.length - limit) =
      (produced ++ piece).drop (produced.length + piece.length - limit) := by
  rw [← List.drop_append_of_le_length (by omega), List.drop_drop]
  congr 1
  omega

/-- One more piece. -/
theorem Tailed.append {chunks : List ExecStreamChunk} {produced piece : Text}
    (h : Tailed chunks produced) (hproduced : Ascii produced) (hpiece : Ascii piece)
    (hfits : Text.len produced + Text.len piece ≤ U64_MAX) :
    ∃ chunks', append_exec_chunk chunks ⟨Text.len produced, piece⟩ = some chunks' ∧
      Tailed chunks' (produced ++ piece) := by
  have hlimit : 0 < MAX_EXEC_STREAM_RETAINED_BYTES := by decide
  have hjoined : Contiguous (join_chunk chunks ⟨Text.len produced, piece⟩) :=
    join_chunk_spaced h.contiguous hfits h.last_next
  have hlen := h.len_output hproduced
  obtain ⟨chunks', hprune, hcontiguous, htail, hascii, hfirst⟩ := prune_exec_stream_ascii hjoined
    (join_chunk_ascii h.ascii hpiece) MAX_EXEC_STREAM_RETAINED_BYTES
  rw [output_join_chunk, Text.len_append] at htail hfirst
  dsimp only at htail hfirst
  have hdrop : output chunks' = (produced ++ piece).drop
      (Text.len (produced ++ piece) - MAX_EXEC_STREAM_RETAINED_BYTES) := by
    rw [htail, hlen, h.tail, Text.len_append, hproduced.len, hpiece.len]
    exact drop_drop_append _
  refine ⟨chunks', ?_, hcontiguous, hascii, hdrop, ?_⟩
  · unfold append_exec_chunk
    rw [h.truncate]
    exact hprune
  · intro first' hfirst'
    have hhead := head_join_chunk chunks ⟨Text.len produced, piece⟩
    obtain ⟨start, hstart, hsum⟩ : ∃ start,
        (join_chunk chunks ⟨Text.len produced, piece⟩).head?.map ExecStreamChunk.offset =
          some start ∧ start + Text.len (output chunks) = Text.len produced := by
      cases chunks with
      | nil => exact ⟨Text.len produced, hhead, rfl⟩
      | cons first rest => exact ⟨first.offset, hhead, h.first first rfl⟩
    obtain ⟨first, hmem, rfl⟩ := Option.map_eq_some_iff.mp hstart
    have hmoved := hfirst first hmem first' hfirst'
    have hlen' : Text.len (output chunks') = Text.len (produced ++ piece) -
        (Text.len (produced ++ piece) - MAX_EXEC_STREAM_RETAINED_BYTES) := by
      rw [hdrop, ((hproduced.append hpiece).drop _).len, List.length_drop,
        (hproduced.append hpiece).len]
    rw [Text.len_append] at hlen' ⊢
    omega

/-- The pieces that follow on a stream. -/
theorem Tailed.append_pieces {pieces : List Text} {chunks : List ExecStreamChunk}
    {produced : Text} (h : Tailed chunks produced) (hproduced : Ascii produced)
    (hpieces : ∀ piece ∈ pieces, Ascii piece)
    (hfits : Text.len (produced ++ pieces.flatten) ≤ U64_MAX) :
    ∃ chunks', pieces.foldlM append_piece (chunks, Text.len produced) =
        some (chunks', Text.len (produced ++ pieces.flatten)) ∧
      Tailed chunks' (produced ++ pieces.flatten) := by
  induction pieces generalizing chunks produced with
  | nil =>
    rw [List.flatten_nil, List.append_nil]
    exact ⟨chunks, rfl, h⟩
  | cons piece pieces ih =>
    rw [List.forall_mem_cons] at hpieces
    rw [List.flatten_cons, ← List.append_assoc] at hfits ⊢
    have hlen : Text.len (produced ++ piece) ≤ U64_MAX := by
      rw [Text.len_append] at hfits
      omega
    rw [Text.len_append] at hlen
    obtain ⟨chunks', happend, htailed⟩ := h.append hproduced hpieces.1 hlen
    obtain ⟨last, hrun, hlast⟩ := ih htailed (hproduced.append hpieces.1) hpieces.2 hfits
    refine ⟨last, ?_, hlast⟩
    rw [List.foldlM_cons, append_piece, happend]
    rw [Text.len_append] at hrun
    exact hrun

theorem ascii_flatten {pieces : List Text} (h : ∀ piece ∈ pieces, Ascii piece) :
    Ascii pieces.flatten := by
  intro c hc
  obtain ⟨piece, hpiece, hmem⟩ := List.mem_flatten.mp hc
  exact h piece hpiece c hmem

/-- As long as the bytes are counted by a `usize`, the stream keeps the last of them. -/
theorem append_pieces_keeps_tail (pieces : List Text) (hascii : ∀ piece ∈ pieces, Ascii piece)
    (hfits : Text.len pieces.flatten ≤ U64_MAX) :
    ∃ chunks, append_pieces pieces = some (chunks, Text.len pieces.flatten) ∧
      TailKept chunks pieces.flatten := by
  obtain ⟨chunks, hrun, htailed⟩ := Tailed.nil.append_pieces nofun hascii hfits
  exact ⟨chunks, hrun, htailed.tail_kept (ascii_flatten hascii)⟩

theorem append_pieces_keeps_two :
    ∃ chunks, append_pieces ["ab".toList, "c".toList] =
        some (chunks, Text.len ["ab".toList, "c".toList].flatten) ∧
      TailKept chunks ["ab".toList, "c".toList].flatten := by
  apply append_pieces_keeps_tail
  · simp [Ascii]
  · decide +kernel

/-! ## Past the last byte position -/

theorem drop_bytes_offsets {n : Nat} {chunks chunks' : List ExecStreamChunk}
    (h : ∀ chunk ∈ chunks, chunk.offset ≤ U64_MAX) (hdrop : drop_bytes n chunks = some chunks') :
    ∀ chunk ∈ chunks', chunk.offset ≤ U64_MAX := by
  induction chunks generalizing n with
  | nil =>
    cases hdrop
    exact h
  | cons first rest ih =>
    rw [List.forall_mem_cons] at h
    rw [drop_bytes] at hdrop
    split at hdrop
    · exact ih h.2 hdrop
    · split at hdrop
      · obtain ⟨p, -, rfl⟩ := Option.map_eq_some_iff.mp hdrop
        rw [List.forall_mem_cons]
        exact ⟨Nat.min_le_right _ _, h.2⟩
      · cases hdrop
        exact List.forall_mem_cons.mpr h

theorem join_chunk_offsets {chunks : List ExecStreamChunk} {chunk : ExecStreamChunk}
    (h : ∀ c ∈ chunks, c.offset ≤ U64_MAX) (hchunk : chunk.offset ≤ U64_MAX) :
    ∀ c ∈ join_chunk chunks chunk, c.offset ≤ U64_MAX := by
  have hpush : ∀ c ∈ chunks ++ [chunk], c.offset ≤ U64_MAX := by
    intro c hc
    rcases List.mem_append.mp hc with hc | hc
    · exact h c hc
    · rwa [List.mem_singleton.mp hc]
  unfold join_chunk
  split
  · next last hmem =>
    split
    · obtain ⟨front, rfl⟩ := List.getLast?_eq_some_iff.mp hmem
      rw [List.dropLast_concat]
      intro c hc
      rcases List.mem_append.mp hc with hc | hc
      · exact h c (List.mem_append_left _ hc)
      · rw [List.mem_singleton.mp hc]
        exact h last (List.mem_append_right _ (List.mem_singleton_self _))
    · exact hpush
  · exact hpush

/-- A chunk that ends past the last byte position by more than the limit: no offset tells where
the last bytes begin. -/
theorem not_kept_of_far {pieces : List Text} {piece : Text} {chunks : List ExecStreamChunk}
    {n : Nat} (hascii : ∀ piece ∈ pieces, Ascii piece) (hfits : Text.len pieces.flatten ≤ U64_MAX)
    (hfar : U64_MAX + MAX_EXEC_STREAM_RETAINED_BYTES < Text.len (pieces ++ [piece]).flatten)
    (hrun : append_pieces (pieces ++ [piece]) = some (chunks, n)) :
    ¬ TailKept chunks (pieces ++ [piece]).flatten := by
  intro hkept
  obtain ⟨before, hbefore, htailed⟩ := Tailed.nil.append_pieces nofun hascii hfits
  have hlimit : 0 < MAX_EXEC_STREAM_RETAINED_BYTES := by decide
  have hoffsets : ∀ chunk ∈ chunks, chunk.offset ≤ U64_MAX := by
    have hbefore' : append_pieces pieces = some (before, Text.len pieces.flatten) := hbefore
    rw [append_pieces_concat, hbefore', Option.bind_eq_bind, Option.bind_some] at hrun
    obtain ⟨chunks', happend, heq⟩ := Option.map_eq_some_iff.mp hrun
    cases heq
    unfold append_exec_chunk at happend
    have htruncate : truncate_exec_stream before (Text.len pieces.flatten) = some before :=
      htailed.truncate
    rw [htruncate, Option.bind_eq_bind, Option.bind_some] at happend
    have hjoined : ∀ chunk ∈ join_chunk before ⟨Text.len pieces.flatten, piece⟩,
        chunk.offset ≤ U64_MAX := by
      apply join_chunk_offsets _ hfits
      intro chunk hchunk
      exact Nat.le_trans (Nat.le_add_right _ _) (htailed.contiguous.fits chunk hchunk)
    unfold prune_exec_stream at happend
    dsimp only at happend
    split at happend
    · cases happend
      exact hjoined
    · exact drop_bytes_offsets hjoined happend
  have hlength := hkept.length
  cases chunks with
  | nil =>
    have hzero : Text.len (output []) = 0 := rfl
    omega
  | cons first rest =>
    have hfirst := hkept.first_offset first rfl
    have hle := hoffsets first List.mem_cons_self
    omega

/-- As long as a `String` can be. -/
def long_piece : Text := List.replicate (2 ^ 63 - 1) 'a'

theorem long_piece_ascii : Ascii long_piece := by
  intro c hc
  obtain rfl := List.eq_of_mem_replicate hc
  decide

theorem len_long_piece : Text.len long_piece = 2 ^ 63 - 1 := by
  rw [long_piece_ascii.len]
  exact List.length_replicate

/-- Three such pieces end past the last byte position, though each starts at one. -/
theorem long_pieces_are_not_kept :
    (∀ piece ∈ [long_piece, long_piece, long_piece], Ascii piece) ∧
      Text.len [long_piece, long_piece].flatten ≤ U64_MAX ∧
      ¬ ∃ chunks n, append_pieces [long_piece, long_piece, long_piece] = some (chunks, n) ∧
        TailKept chunks [long_piece, long_piece, long_piece].flatten := by
  have hascii : ∀ piece ∈ [long_piece, long_piece], Ascii piece := by
    intro piece hpiece
    obtain rfl : piece = long_piece := by simpa using hpiece
    exact long_piece_ascii
  have htwo : Text.len [long_piece, long_piece].flatten = 2 * (2 ^ 63 - 1) := by
    simp only [List.flatten_cons, List.flatten_nil, List.append_nil, Text.len_append,
      len_long_piece]
    omega
  have hthree : Text.len ([long_piece, long_piece] ++ [long_piece]).flatten =
      3 * (2 ^ 63 - 1) := by
    rw [List.flatten_append, Text.len_append, htwo, List.flatten_singleton, len_long_piece]
    omega
  refine ⟨?_, ?_, ?_⟩
  · intro piece hpiece
    obtain rfl : piece = long_piece := by simpa using hpiece
    exact long_piece_ascii
  · rw [htwo]
    decide
  · rintro ⟨chunks, n, hrun, hkept⟩
    refine not_kept_of_far hascii ?_ ?_ hrun hkept
    · rw [htwo]
      decide
    · rw [hthree]
      decide

end Ecode.history
