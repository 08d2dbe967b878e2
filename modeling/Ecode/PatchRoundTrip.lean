-- Printing a patch by the grammar of the parser (apply-patch/src/parser.rs) and
-- reading it back: whatever the lines look like, the same hunks come out.
import Ecode.PatchParser
import Ecode.TextLines

namespace Ecode.apply_patch

/-! ## The patches that can be printed -/

/-- A text on a line of its own. -/
structure Line where
  text : Text
  no_line_feed : '\n' ∉ text
  no_carriage_return : text.getLast? ≠ some '\r'
  deriving DecidableEq

structure FileName where
  text : Text
  nonempty : text ≠ []
  trimmed : Text.trim text = text
  no_line_feed : '\n' ∉ text
  deriving DecidableEq

inductive ChangeLine where
  | context (line : Line)
  | added (line : Line)
  | removed (line : Line)
  deriving DecidableEq

/-- A chunk under its `@@` header. -/
structure Change where
  change_context : Option Line
  lines : List ChangeLine
  nonempty : lines ≠ []
  eof_line : Bool
  deriving DecidableEq

inductive PrintedHunk where
  | add (path : FileName) (lines : List Line)
  | delete (path : FileName)
  | update (path : FileName) (move_path : Option FileName) (changes : List Change)
      (nonempty : changes ≠ [])
  deriving DecidableEq

/-! ## What they mean -/

namespace ChangeLine

def old : ChangeLine → List Text
  | context line => [line.text]
  | added _ => []
  | removed line => [line.text]

def new : ChangeLine → List Text
  | context line => [line.text]
  | added line => [line.text]
  | removed _ => []

def print : ChangeLine → Text
  | context line => ' ' :: line.text
  | added line => '+' :: line.text
  | removed line => '-' :: line.text

end ChangeLine

namespace Change

def chunk (c : Change) : UpdateFileChunk where
  change_context := c.change_context.map Line.text
  old_lines := c.lines.flatMap ChangeLine.old
  new_lines := c.lines.flatMap ChangeLine.new
  is_end_of_file := c.eof_line

def header (c : Change) : Text :=
  match c.change_context with
  | none => EMPTY_CHANGE_CONTEXT_MARKER
  | some context => CHANGE_CONTEXT_MARKER ++ context.text

def print (c : Change) : List Text :=
  c.header :: c.lines.map ChangeLine.print ++ if c.eof_line then [EOF_MARKER] else []

end Change

namespace PrintedHunk

def hunk : PrintedHunk → Hunk
  | add path lines =>
    .AddFile (Path.of_text path.text) (lines.flatMap fun line => line.text ++ ['\n'])
  | delete path => .DeleteFile (Path.of_text path.text)
  | update path move_path changes _ =>
    .UpdateFile (Path.of_text path.text) (move_path.map fun path => Path.of_text path.text)
      (changes.map Change.chunk)

/-- The line of a new path, for a file that is moved. -/
def print_move (move_path : Option FileName) : List Text :=
  move_path.toList.map fun path => MOVE_TO_MARKER ++ path.text

def print : PrintedHunk → List Text
  | add path lines =>
    (ADD_FILE_MARKER ++ path.text) :: lines.map fun line => '+' :: line.text
  | delete path => [DELETE_FILE_MARKER ++ path.text]
  | update path move_path changes _ =>
    (UPDATE_FILE_MARKER ++ path.text) :: print_move move_path ++ changes.flatMap Change.print

end PrintedHunk

/-- A patch, with or without a line feed at its end. -/
def print_patch (hunks : List PrintedHunk) (last_line_feed : Bool) : Text :=
  Text.terminated (BEGIN_PATCH_MARKER :: hunks.flatMap PrintedHunk.print) ++ END_PATCH_MARKER ++
    if last_line_feed then ['\n'] else []

/-! ## Where a chunk and a hunk end -/

/-- No line of a chunk comes next. -/
def ChunkEnds (rest : List Text) : Prop :=
  ∀ line ∈ rest.head?, line ≠ EOF_MARKER ∧ ∃ c ∈ line.head?, c = '@' ∨ c = '*'

/-- The header of a hunk comes next, if a line does. -/
def HunkEnds (rest : List Text) : Prop :=
  ∀ line ∈ rest.head?, line ≠ EOF_MARKER ∧ Text.starts_with line "***".toList = true ∧
    Text.trim line ≠ []

theorem HunkEnds.chunk_ends {rest : List Text} (h : HunkEnds rest) : ChunkEnds rest := by
  intro line hline
  obtain ⟨hne, hstars, -⟩ := h line hline
  refine ⟨hne, ?_⟩
  rcases line with _ | ⟨c, line⟩
  · cases hstars
  · have hc : '*' = c := by
      have hprefix := List.isPrefixOf_iff_prefix.mp hstars
      exact (List.cons_prefix_cons.mp hprefix).1
    exact ⟨c, rfl, .inr hc.symm⟩

/-! ## Reading the lines of a chunk -/

/-- A chunk with the lines of a change after its own. -/
def with_lines (chunk : UpdateFileChunk) (lines : List ChangeLine) : UpdateFileChunk :=
  { chunk with
    old_lines := chunk.old_lines ++ lines.flatMap ChangeLine.old
    new_lines := chunk.new_lines ++ lines.flatMap ChangeLine.new }

theorem ne_eof {c : Char} (h : c ≠ '*') (t : Text) : c :: t ≠ EOF_MARKER := by
  have hhead : EOF_MARKER.head? = some '*' := by decide
  intro heq
  rw [← heq] at hhead
  exact h (Option.some.inj hhead)

/-- Every printed line is read as a line of the chunk, whatever follows its first character. -/
theorem chunk_body_line (line_number : Nat) (line : ChangeLine) (rest : List Text)
    (chunk : UpdateFileChunk) (parsed_lines : Nat) :
    chunk_body line_number (line.print :: rest) chunk parsed_lines =
      chunk_body line_number rest (with_lines chunk [line]) (parsed_lines + 1) := by
  conv_lhs => unfold chunk_body
  cases line with
  | context line =>
    rw [if_neg (by exact ne_eof (by decide) line.text)]
    rfl
  | added line =>
    rw [if_neg (by exact ne_eof (by decide) line.text)]
    simp [ChangeLine.print, with_lines, ChangeLine.old, ChangeLine.new]
  | removed line =>
    rw [if_neg (by exact ne_eof (by decide) line.text)]
    simp [ChangeLine.print, with_lines, ChangeLine.old, ChangeLine.new]

theorem chunk_body_lines (line_number : Nat) (lines : List ChangeLine) (rest : List Text)
    (chunk : UpdateFileChunk) (parsed_lines : Nat) :
    chunk_body line_number (lines.map ChangeLine.print ++ rest) chunk parsed_lines =
      chunk_body line_number rest (with_lines chunk lines) (parsed_lines + lines.length) := by
  induction lines generalizing chunk parsed_lines with
  | nil => simp [with_lines]
  | cons line lines ih =>
    rw [List.map_cons, List.cons_append, chunk_body_line, ih]
    congr 1
    · simp [with_lines]
    · rw [List.length_cons]
      omega

/-- A chunk with a line ends before what is no line of it. -/
theorem chunk_body_ends {line_number : Nat} {rest : List Text} (h : ChunkEnds rest)
    (chunk : UpdateFileChunk) {parsed_lines : Nat} (hparsed : parsed_lines ≠ 0) :
    chunk_body line_number rest chunk parsed_lines = .ok (chunk, parsed_lines) := by
  rcases rest with _ | ⟨line, rest⟩
  · rfl
  · obtain ⟨hne, c, hc, hmark⟩ := h line rfl
    rcases line with _ | ⟨d, line⟩
    · cases hc
    · obtain rfl : d = c := Option.some.inj hc
      unfold chunk_body
      rw [if_neg hne]
      rcases hmark with rfl | rfl
      · simp [hparsed]
      · simp [hparsed]

/-- The end of file marker ends a chunk with a line. -/
theorem chunk_body_eof (line_number : Nat) (rest : List Text) (chunk : UpdateFileChunk)
    {parsed_lines : Nat} (hparsed : parsed_lines ≠ 0) :
    chunk_body line_number (EOF_MARKER :: rest) chunk parsed_lines =
      .ok ({ chunk with is_end_of_file := true }, parsed_lines + 1) := by
  unfold chunk_body
  rw [if_pos rfl, if_neg hparsed]

/-! ## Reading a chunk -/

namespace Change

/-- What is under the header of a chunk is read as the chunk. -/
theorem chunk_body_print (c : Change) (line_number : Nat) {rest : List Text}
    (h : ChunkEnds rest) :
    chunk_body line_number
      (c.lines.map ChangeLine.print ++ ((if c.eof_line then [EOF_MARKER] else []) ++ rest))
      { change_context := c.change_context.map Line.text, old_lines := [], new_lines := [],
        is_end_of_file := false } 0 =
      .ok (c.chunk, c.print.length - 1) := by
  have hparsed : 0 + c.lines.length ≠ 0 := by
    simpa using c.nonempty
  rw [chunk_body_lines]
  rcases heof : c.eof_line with _ | _
  · simp only [Bool.false_eq_true, if_false, List.nil_append]
    rw [chunk_body_ends h _ hparsed]
    simp [with_lines, chunk, print, heof]
  · simp only [if_true, List.singleton_append]
    rw [chunk_body_eof _ _ _ hparsed]
    simp [with_lines, chunk, print, heof]

/-- A header with a context is not the empty one. -/
theorem context_ne_empty (context : Text) :
    CHANGE_CONTEXT_MARKER ++ context ≠ EMPTY_CHANGE_CONTEXT_MARKER := by
  intro heq
  have hlength := congrArg List.length heq
  simp [CHANGE_CONTEXT_MARKER, EMPTY_CHANGE_CONTEXT_MARKER] at hlength

/-- A printed chunk is read as the chunk, up to its end. -/
theorem parse_print (c : Change) (line_number : Nat) (allow_missing_context : Bool)
    {rest : List Text} (h : ChunkEnds rest) :
    parse_update_file_chunk (c.print ++ rest) line_number allow_missing_context =
      .ok (c.chunk, c.print.length) := by
  have hprint : c.print ++ rest = c.header :: (c.lines.map ChangeLine.print ++
      ((if c.eof_line then [EOF_MARKER] else []) ++ rest)) := by
    simp [print]
  have hlines : 0 < c.lines.length := List.length_pos_iff.mpr c.nonempty
  have hlength : ¬ (c.header :: (c.lines.map ChangeLine.print ++
      ((if c.eof_line then [EOF_MARKER] else []) ++ rest))).length ≤ 1 := by
    simp only [List.length_cons, List.length_append, List.length_map]
    omega
  have hpos : 0 < c.print.length := by simp [print]
  have hbody : ∀ context, c.change_context.map Line.text = context →
      (chunk_body line_number
        (c.lines.map ChangeLine.print ++ ((if c.eof_line then [EOF_MARKER] else []) ++ rest))
        { change_context := context, old_lines := [], new_lines := [], is_end_of_file := false } 0
        >>= fun parsed => Except.ok (parsed.1, parsed.2 + 1)) = .ok (c.chunk, c.print.length) := by
    rintro _ rfl
    rw [c.chunk_body_print line_number h]
    simp only [bind, Except.bind, Nat.sub_add_cancel hpos]
  rw [hprint]
  unfold parse_update_file_chunk
  dsimp only
  -- the header gives the context, and the lines begin after it
  rcases hcontext : c.change_context with _ | context
  · have hheader : c.header = EMPTY_CHANGE_CONTEXT_MARKER := by simp [header, hcontext]
    rw [if_pos hheader]
    change (if _ then _ else _) = _
    rw [if_neg hlength]
    exact hbody none (by rw [hcontext]; rfl)
  · have hheader : c.header = CHANGE_CONTEXT_MARKER ++ context.text := by
      simp [header, hcontext]
    rw [if_neg (by rw [hheader]; exact context_ne_empty context.text), hheader,
      Text.strip_prefix_append, ← hheader]
    change (if _ then _ else _) = _
    rw [if_neg hlength]
    exact hbody (some context.text) (by rw [hcontext]; rfl)

theorem header_head (c : Change) : c.header.head? = some '@' := by
  unfold header
  cases c.change_context <;> rfl

/-- The header of a chunk is not the line of a new path. -/
theorem not_moved (c : Change) : Text.strip_prefix c.header MOVE_TO_MARKER = none := by
  have hhead := c.header_head
  rcases hheader : c.header with _ | ⟨d, header⟩
  · rfl
  · rw [hheader] at hhead
    obtain rfl : d = '@' := Option.some.inj hhead
    rfl

theorem chunk_ends (c : Change) (rest : List Text) : ChunkEnds (c.print ++ rest) := by
  intro line hline
  obtain rfl : c.header = line := Option.some.inj hline
  refine ⟨?_, '@', c.header_head, .inl rfl⟩
  intro heq
  have hhead := c.header_head
  rw [heq] at hhead
  exact absurd hhead (by decide)

end Change

/-! ## Reading the chunks of a hunk -/

theorem chunks_end (changes : List Change) {rest : List Text} (h : HunkEnds rest) :
    ChunkEnds (changes.flatMap Change.print ++ rest) := by
  rcases changes with _ | ⟨c, changes⟩
  · exact h.chunk_ends
  · rw [List.flatMap_cons, List.append_assoc]
    exact c.chunk_ends _

/-- The loop over the chunks reads the printed ones, and stops where the hunk ends. -/
theorem parse_chunks_print (line_number : Nat) (changes : List Change) {rest : List Text}
    (h : HunkEnds rest) {fuel : Nat} (parsed_lines : Nat) (chunks : List UpdateFileChunk)
    (hfuel : (changes.flatMap Change.print ++ rest).length ≤ fuel) :
    parse_chunks line_number fuel (changes.flatMap Change.print ++ rest) parsed_lines chunks =
      .ok (chunks ++ changes.map Change.chunk,
        parsed_lines + (changes.flatMap Change.print).length) := by
  induction changes generalizing fuel parsed_lines chunks with
  | nil =>
    rw [List.flatMap_nil, List.nil_append]
    rcases rest with _ | ⟨line, rest⟩
    · cases fuel <;> simp [parse_chunks]
    · obtain ⟨-, hstars, hblank⟩ := h line rfl
      rcases fuel with _ | fuel
      · simp at hfuel
      · rw [parse_chunks, if_neg hblank, if_pos hstars]
        simp
  | cons c changes ih =>
    have hends := chunks_end changes h
    rw [List.flatMap_cons, List.append_assoc] at hfuel ⊢
    have hpos : 0 < c.print.length := by simp [Change.print]
    rcases fuel with _ | fuel
    · simp only [List.length_append] at hfuel
      omega
    · have hblank : Text.trim c.header ≠ [] := Text.trim_ne_nil c.header_head (by decide)
      have hstars : Text.starts_with c.header "***".toList = false := by
        have hhead := c.header_head
        rcases hheader : c.header with _ | ⟨d, header⟩
        · rfl
        · rw [hheader] at hhead
          obtain rfl : d = '@' := Option.some.inj hhead
          rfl
      have hdrop : (c.print ++ (changes.flatMap Change.print ++ rest)).drop c.print.length =
          changes.flatMap Change.print ++ rest := List.drop_left
      have hchunk := c.parse_print (line_number + parsed_lines) chunks.isEmpty hends
      have hrest := @ih fuel (parsed_lines + c.print.length) (chunks ++ [c.chunk]) (by
        simp only [List.length_append] at hfuel ⊢
        omega)
      have hcons : c.print ++ (changes.flatMap Change.print ++ rest) =
          c.header :: (c.print.tail ++ (changes.flatMap Change.print ++ rest)) := rfl
      rw [hcons, parse_chunks, if_neg hblank, if_neg (by rw [hstars]; decide), ← hcons, hchunk]
      change parse_chunks line_number fuel (List.drop c.print.length _) _ _ = _
      rw [hdrop, hrest]
      simp [Nat.add_assoc]

/-! ## Reading a hunk -/

/-- The lines of an added file end before a line that is no added line. -/
theorem added_lines_print (lines : List Line) {rest : List Text} (h : HunkEnds rest) :
    added_lines (lines.map (fun line => '+' :: line.text) ++ rest) = lines.map Line.text := by
  induction lines with
  | nil =>
    rcases rest with _ | ⟨line, rest⟩
    · rfl
    · obtain ⟨-, c, hc, hmark⟩ := h.chunk_ends line rfl
      rcases line with _ | ⟨d, line⟩
      · cases hc
      · obtain rfl : d = c := Option.some.inj hc
        rcases hmark with rfl | rfl
        · rfl
        · rfl
  | cons line lines ih =>
    rw [List.map_cons, List.cons_append, added_lines, ih, List.map_cons]

/-- A header that ends in a file name is trimmed. -/
theorem trim_header (path : FileName) {marker : Text} (h : marker.head? = some '*') :
    Text.trim (marker ++ path.text) = marker ++ path.text := by
  have hne : marker ≠ [] := by
    rintro rfl
    cases h
  apply Text.trim_eq_self
  · intro c hc
    rw [List.head?_append_of_ne_nil marker hne, h] at hc
    obtain rfl := Option.some.inj hc
    decide
  · intro c hc
    rw [List.getLast?_append_of_ne_nil marker path.nonempty] at hc
    exact Text.getLast_of_trim path.trimmed hc

namespace PrintedHunk

/-- The line of a header, which is no end of file marker. -/
theorem header_ends {marker : Text} (path : FileName)
    (h : Text.starts_with marker "***".toList = true) (hlen : 5 ≤ marker.length)
    (hne : marker.take 5 ≠ EOF_MARKER.take 5) :
    marker ++ path.text ≠ EOF_MARKER ∧
      Text.starts_with (marker ++ path.text) "***".toList = true ∧
      Text.trim (marker ++ path.text) ≠ [] := by
  have hpre := List.isPrefixOf_iff_prefix.mp h
  refine ⟨fun heq => hne ?_, ?_, ?_⟩
  · rw [← heq, List.take_append_of_le_length hlen]
  · exact List.isPrefixOf_iff_prefix.mpr (hpre.trans (List.prefix_append _ _))
  · obtain ⟨t, rfl⟩ := hpre
    exact Text.trim_ne_nil (c := '*') rfl (by decide)

theorem hunk_ends (h : PrintedHunk) (rest : List Text) : HunkEnds (h.print ++ rest) := by
  intro line hline
  cases h with
  | add path lines =>
    obtain rfl : _ = line := Option.some.inj hline
    exact header_ends path (by decide) (by decide) (by decide)
  | delete path =>
    obtain rfl : _ = line := Option.some.inj hline
    exact header_ends path (by decide) (by decide) (by decide)
  | update path move_path changes nonempty =>
    obtain rfl : _ = line := Option.some.inj hline
    exact header_ends path (by decide) (by decide) (by decide)

/-- A printed hunk is read as the hunk, up to its end. -/
theorem parse_print (h : PrintedHunk) (line_number : Nat) {rest : List Text}
    (hrest : HunkEnds rest) :
    parse_one_hunk (h.print ++ rest) line_number = .ok (h.hunk, h.print.length) := by
  unfold parse_one_hunk
  cases h with
  | add path lines =>
    simp only [print, List.cons_append, List.headD_cons, List.tail_cons]
    rw [trim_header path (by decide), Text.strip_prefix_append]
    simp [added_lines_print lines hrest, hunk, List.flatMap_map]
  | delete path =>
    simp only [print, List.cons_append, List.headD_cons]
    rw [trim_header path (by decide),
      Text.strip_prefix_eq_none path.text (by decide) (by decide), Text.strip_prefix_append]
    rfl
  | update path move_path changes nonempty =>
    simp only [print, List.cons_append, List.headD_cons, List.tail_cons]
    rw [trim_header path (by decide),
      Text.strip_prefix_eq_none path.text (by decide) (by decide),
      Text.strip_prefix_eq_none path.text (by decide) (by decide), Text.strip_prefix_append]
    have hchunks : ∀ parsed_lines,
        parse_chunks line_number (changes.flatMap Change.print ++ rest).length
          (changes.flatMap Change.print ++ rest) parsed_lines [] =
            .ok (changes.map Change.chunk,
              parsed_lines + (changes.flatMap Change.print).length) :=
      fun parsed_lines => parse_chunks_print line_number changes hrest parsed_lines [] le_rfl
    have hsome : (changes.map Change.chunk).isEmpty = false := by
      simpa using nonempty
    rcases move_path with _ | new_path
    · have hmove : (changes.flatMap Change.print ++ rest).head?.bind
          (fun line => Text.strip_prefix line MOVE_TO_MARKER) = none := by
        rcases changes with _ | ⟨c, changes⟩
        · exact absurd rfl nonempty
        · exact c.not_moved
      simp only [print_move, Option.toList_none, List.map_nil, List.nil_append, hmove,
        Option.isSome_none, Bool.false_eq_true, if_false, List.drop_zero]
      rw [hchunks]
      simp [bind, Except.bind, hsome, hunk, Nat.add_comm]
    · have hmove : Text.strip_prefix (MOVE_TO_MARKER ++ new_path.text) MOVE_TO_MARKER =
          some new_path.text := Text.strip_prefix_append _ _
      simp only [print_move, Option.toList_some, List.map_cons, List.map_nil, List.cons_append,
        List.nil_append, List.head?_cons, Option.bind_some, hmove, Option.isSome_some, if_true,
        List.drop_succ_cons, List.drop_zero]
      rw [hchunks]
      simp [bind, Except.bind, hsome, hunk]
      omega

end PrintedHunk

/-! ## Reading a patch -/

/-- The loop over the hunks reads the printed ones. -/
theorem parse_hunks_print (hunks : List PrintedHunk) {fuel : Nat} (line_number : Nat)
    (hfuel : (hunks.flatMap PrintedHunk.print).length ≤ fuel) :
    parse_hunks fuel (hunks.flatMap PrintedHunk.print) line_number =
      .ok (hunks.map PrintedHunk.hunk) := by
  induction hunks generalizing fuel line_number with
  | nil => cases fuel <;> rfl
  | cons h hunks ih =>
    have hends : HunkEnds (hunks.flatMap PrintedHunk.print) := by
      rcases hunks with _ | ⟨next, hunks⟩
      · rintro line ⟨⟩
      · exact next.hunk_ends _
    have hpos : 0 < h.print.length := by cases h <;> simp [PrintedHunk.print]
    obtain ⟨first, tail, hcons⟩ := List.exists_cons_of_length_pos hpos
    rw [List.flatMap_cons, List.length_append] at hfuel
    rcases fuel with _ | fuel
    · omega
    · have hrest := @ih fuel (line_number + h.print.length) (by omega)
      have hparse := h.parse_print line_number hends
      have hprint : h.print ++ hunks.flatMap PrintedHunk.print =
          first :: (tail ++ hunks.flatMap PrintedHunk.print) := by
        rw [hcons, List.cons_append]
      rw [List.flatMap_cons, hprint, parse_hunks, ← hprint, hparse]
      change (parse_hunks fuel (List.drop h.print.length _) _ >>= _) = _
      rw [List.drop_left, hrest]
      rfl

/-- A text that can stand on a line: it comes back from `str::lines` as it is. -/
def OnLine (t : Text) : Prop := '\n' ∉ t ∧ t.getLast? ≠ some '\r'

theorem Line.on_line (line : Line) : OnLine line.text :=
  ⟨line.no_line_feed, line.no_carriage_return⟩

theorem FileName.on_line (path : FileName) : OnLine path.text := by
  refine ⟨path.no_line_feed, fun hlast => ?_⟩
  exact absurd (Text.getLast_of_trim path.trimmed hlast) (by decide)

/-- A mark before such a text leaves it one. -/
theorem OnLine.append {p t : Text} (hp : OnLine p) (ht : OnLine t) : OnLine (p ++ t) := by
  refine ⟨fun hmem => ?_, fun hlast => ?_⟩
  · rcases List.mem_append.mp hmem with hmem | hmem
    · exact hp.1 hmem
    · exact ht.1 hmem
  · rcases t.eq_nil_or_concat with rfl | ⟨t', c, rfl⟩
    · rw [List.append_nil] at hlast
      exact hp.2 hlast
    · apply ht.2
      rwa [List.getLast?_append_of_ne_nil p (by simp)] at hlast

instance (t : Text) : Decidable (OnLine t) := inferInstanceAs (Decidable (_ ∧ _))

theorem exists_lines {ts : List Text} (h : ∀ t ∈ ts, OnLine t) :
    ∃ lines : List Line, lines.map Line.text = ts := by
  have hrange : ts ∈ Set.range (List.map Line.text) := by
    rw [Set.range_list_map]
    exact fun t ht => ⟨⟨t, (h t ht).1, (h t ht).2⟩, rfl⟩
  exact hrange

/-- Every chunk with a line is that of a change that can be printed: the removed lines, and the
added ones after them. -/
theorem Change.exists_chunk (chunk : UpdateFileChunk)
    (hcontext : ∀ context ∈ chunk.change_context, OnLine context)
    (hold : ∀ line ∈ chunk.old_lines, OnLine line)
    (hnew : ∀ line ∈ chunk.new_lines, OnLine line)
    (hne : chunk.old_lines ≠ [] ∨ chunk.new_lines ≠ []) :
    ∃ c : Change, c.chunk = chunk := by
  obtain ⟨change_context, old_lines, new_lines, is_end_of_file⟩ := chunk
  obtain ⟨context, rfl⟩ :
      ∃ context : Option Line, context.map Line.text = change_context := by
    rcases change_context with _ | t
    · exact ⟨none, rfl⟩
    · exact ⟨some ⟨t, (hcontext t rfl).1, (hcontext t rfl).2⟩, rfl⟩
  obtain ⟨old, rfl⟩ := exists_lines hold
  obtain ⟨new, rfl⟩ := exists_lines hnew
  have hlines : old.map ChangeLine.removed ++ new.map ChangeLine.added ≠ [] := by
    simpa [or_iff_not_imp_left] using hne
  refine ⟨⟨context, _, hlines, is_end_of_file⟩, ?_⟩
  have hnone : ∀ ls : List Line, ls.flatMap (fun _ => ([] : List Text)) = [] := by
    intro ls
    simp
  have htexts : ∀ ls : List Line, ls.flatMap (fun line => [line.text]) = ls.map Line.text :=
    fun ls => List.flatMap_pure_eq_map Line.text ls
  simp [chunk, ChangeLine.old, ChangeLine.new, List.flatMap_map, hnone, htexts]

theorem ChangeLine.print_on_line (line : ChangeLine) : OnLine line.print := by
  cases line with
  | context line => exact OnLine.append (p := [' ']) (by decide) line.on_line
  | added line => exact OnLine.append (p := ['+']) (by decide) line.on_line
  | removed line => exact OnLine.append (p := ['-']) (by decide) line.on_line

theorem Change.print_on_line (c : Change) : ∀ line ∈ c.print, OnLine line := by
  intro line hline
  simp only [print, List.cons_append, List.mem_cons, List.mem_append, List.mem_map] at hline
  rcases hline with rfl | ⟨changed, -, rfl⟩ | hline
  · unfold header
    rcases c.change_context with _ | context
    · decide
    · exact OnLine.append (by decide) context.on_line
  · exact changed.print_on_line
  · split at hline
    · obtain rfl := List.mem_singleton.mp hline
      decide
    · cases hline

theorem PrintedHunk.print_on_line (h : PrintedHunk) : ∀ line ∈ h.print, OnLine line := by
  intro line hline
  cases h with
  | add path lines =>
    rcases List.mem_cons.mp hline with rfl | hline
    · exact OnLine.append (by decide) path.on_line
    · obtain ⟨added, -, rfl⟩ := List.mem_map.mp hline
      exact OnLine.append (p := ['+']) (by decide) added.on_line
  | delete path =>
    obtain rfl := List.mem_singleton.mp hline
    exact OnLine.append (by decide) path.on_line
  | update path move_path changes nonempty =>
    rcases List.mem_cons.mp hline with rfl | hline
    · exact OnLine.append (by decide) path.on_line
    · rcases List.mem_append.mp hline with hline | hline
      · obtain ⟨new_path, -, rfl⟩ := List.mem_map.mp hline
        exact OnLine.append (by decide) new_path.on_line
      · obtain ⟨c, -, hline⟩ := List.mem_flatMap.mp hline
        exact c.print_on_line line hline

/-- The lines of a printed patch are those that were printed. -/
theorem lines_print_patch (hunks : List PrintedHunk) (last_line_feed : Bool) :
    Text.lines (Text.trim (print_patch hunks last_line_feed)) =
      (BEGIN_PATCH_MARKER :: hunks.flatMap PrintedHunk.print) ++ [END_PATCH_MARKER] := by
  have hlines : ∀ line ∈ BEGIN_PATCH_MARKER :: hunks.flatMap PrintedHunk.print,
      OnLine line := by
    intro line hline
    rcases List.mem_cons.mp hline with rfl | hline
    · decide
    · obtain ⟨h, -, hline⟩ := List.mem_flatMap.mp hline
      exact h.print_on_line line hline
  have hbegin : BEGIN_PATCH_MARKER.head? = some '*' := by decide
  have hend : END_PATCH_MARKER.getLast? = some 'h' := by decide
  unfold print_patch
  rw [Text.trim_append]
  · exact Text.lines_terminated (fun line hline => (hlines line hline).1)
      (fun line hline => (hlines line hline).2) (by decide) (by decide)
  · exact List.append_ne_nil_of_right_ne_nil _ (by decide)
  · intro c hc
    have hfirst : (Text.terminated (BEGIN_PATCH_MARKER :: hunks.flatMap PrintedHunk.print) ++
        END_PATCH_MARKER).head? = some '*' := by
      rw [Text.terminated, List.flatMap_cons, List.append_assoc, List.append_assoc,
        List.head?_append_of_ne_nil _ (by decide), hbegin]
    rw [hfirst] at hc
    obtain rfl := Option.some.inj hc
    decide
  · intro c hc
    rw [List.getLast?_append_of_ne_nil _ (by decide), hend] at hc
    obtain rfl := Option.some.inj hc
    decide
  · intro c hc
    split at hc
    · obtain rfl := List.mem_singleton.mp hc
      decide
    · cases hc

/-- The lines of a printed patch. -/
def patch_lines (hunks : List PrintedHunk) : List Text :=
  (BEGIN_PATCH_MARKER :: hunks.flatMap PrintedHunk.print) ++ [END_PATCH_MARKER]

theorem patch_lines_strict (hunks : List PrintedHunk) :
    check_patch_boundaries_strict (patch_lines hunks) = .ok () := by
  unfold check_patch_boundaries_strict check_start_and_end_lines_strict patch_lines
  rw [List.getLast?_concat]
  rfl

/-- Every list of hunks that is printed by the grammar is read back as it was. -/
theorem parse_patch_print (hunks : List PrintedHunk) (last_line_feed : Bool) :
    parse_patch (print_patch hunks last_line_feed) =
      .ok {
        patch := Text.join ['\n'] (patch_lines hunks)
        hunks := hunks.map PrintedHunk.hunk
        workdir := none } := by
  have hbody : (patch_lines hunks).dropLast.tail = hunks.flatMap PrintedHunk.print := by
    unfold patch_lines
    rw [List.dropLast_concat, List.tail_cons]
  have hhunks := parse_hunks_print hunks 2 le_rfl
  unfold parse_patch
  rw [lines_print_patch]
  dsimp only
  rw [← patch_lines, patch_lines_strict]
  dsimp only
  change (parse_hunks (patch_lines hunks).dropLast.tail.length (patch_lines hunks).dropLast.tail 2
    >>= _) = _
  rw [hbody, hhunks]
  rfl

end Ecode.apply_patch
