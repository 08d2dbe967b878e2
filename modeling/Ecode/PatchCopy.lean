-- The patch text that is kept beside the hunks (apply-patch/src/parser.rs): when it is read
-- to the same hunks again, and when the patch is read to them inside a heredoc.
import Ecode.PatchParser
import Ecode.LineReturns

namespace Ecode.apply_patch

open Text (bare bare_eq_self bare_append bare_cases)

/-! ## The lines whose ends are kept -/

/-- Where the parser is before a line. -/
inductive Place where
  | header
  | added
  | updated
  | between
  | inside
  deriving DecidableEq, Repr

/-- What a line of a chunk adds to the old lines and to the new ones. -/
def chunk_line : Text → Option (List Text × List Text)
  | [] => some ([[]], [[]])
  | ' ' :: t => some ([t], [t])
  | '+' :: t => some ([], [t])
  | '-' :: t => some ([t], [])
  | _ => none

/-- The place after the first line of a hunk. -/
def at_header (line : Text) : Place :=
  let first_line := Text.trim line
  if (Text.strip_prefix first_line ADD_FILE_MARKER).isSome then .added
  else if (Text.strip_prefix first_line DELETE_FILE_MARKER).isSome then .header
  else if (Text.strip_prefix first_line UPDATE_FILE_MARKER).isSome then .updated
  else .header

/-- The place after a line between two chunks, and whether the end of the line is kept. -/
def at_between (line : Text) : Place × Bool :=
  if Text.trim line = [] then (.between, false)
  else if Text.starts_with line "***".toList then (at_header line, false)
  else (.inside, true)

/-- The place after a line, and whether the end of the line is kept: the first lines of the
hunks are trimmed, and blank lines between chunks are skipped. Inside a chunk a line counts
as it would without a carriage return at its end. -/
def advance : Place → Text → Place × Bool
  | .header, line => (at_header line, false)
  | .added, line => if line.head? = some '+' then (.added, true) else (at_header line, false)
  | .updated, line =>
    if (Text.strip_prefix line MOVE_TO_MARKER).isSome then (.between, true) else at_between line
  | .between, line => at_between line
  | .inside, line =>
    if bare line = EOF_MARKER then (.between, true)
    else if (chunk_line (bare line)).isSome then (.inside, true)
    else at_between line

/-- No line whose end is kept ends in a carriage return. -/
def NoReturnKept : Place → List Text → Prop
  | _, [] => True
  | place, line :: rest =>
    ((advance place line).2 = true → line.getLast? ≠ some '\r') ∧
      NoReturnKept (advance place line).1 rest

instance NoReturnKept.decide : ∀ place lines, Decidable (NoReturnKept place lines)
  | _, [] => inferInstanceAs (Decidable True)
  | place, line :: rest =>
    have := NoReturnKept.decide (advance place line).1 rest
    inferInstanceAs (Decidable (_ ∧ _))

theorem noReturnKept_cons {place next : Place} {keeps : Bool} {line : Text} {rest : List Text}
    (h : advance place line = (next, keeps)) : NoReturnKept place (line :: rest) ↔
      (keeps = true → line.getLast? ≠ some '\r') ∧ NoReturnKept next rest := by
  rw [NoReturnKept, h]

/-- What is read from lines is read from the bare lines, with the same number of lines, just
when `kept` is so. -/
structure Copied {α : Type} (kept : Prop) (again : Except ParseError (α × Nat)) (value : α)
    (lines : Nat) : Prop where
  same : kept → again = .ok (value, lines)
  only : ∀ n, again = .ok (value, n) → kept

/-! ## A chunk -/

section chunk

variable {line_number : Nat}

def UpdateFileChunk.grow (chunk : UpdateFileChunk) (olds news : List Text) : UpdateFileChunk :=
  { chunk with old_lines := chunk.old_lines ++ olds, new_lines := chunk.new_lines ++ news }

@[simp]
theorem UpdateFileChunk.grow_old_lines (chunk : UpdateFileChunk) (olds news : List Text) :
    (chunk.grow olds news).old_lines = chunk.old_lines ++ olds := rfl

@[simp]
theorem UpdateFileChunk.grow_new_lines (chunk : UpdateFileChunk) (olds news : List Text) :
    (chunk.grow olds news).new_lines = chunk.new_lines ++ news := rfl

@[simp]
theorem UpdateFileChunk.grow_is_end_of_file (chunk : UpdateFileChunk) (olds news : List Text) :
    (chunk.grow olds news).is_end_of_file = chunk.is_end_of_file := rfl

/-- A turn of the loop on a line that is no end marker. -/
theorem chunk_body_turn (line_number : Nat) {line : Text} (h : line ≠ EOF_MARKER)
    (rest : List Text) (chunk : UpdateFileChunk) (parsed_lines : Nat) :
    ∃ error, chunk_body line_number (line :: rest) chunk parsed_lines =
      match chunk_line line with
      | some added =>
        chunk_body line_number rest (chunk.grow added.1 added.2) (parsed_lines + 1)
      | none => if parsed_lines = 0 then .error error else .ok (chunk, parsed_lines) := by
  conv in chunk_body _ (line :: rest) _ _ => unfold chunk_body
  rw [if_neg h]
  cases line with
  | nil => exact ⟨.InvalidPatchError [], rfl⟩
  | cons c t =>
    by_cases hspace : c = ' '
    · subst hspace
      exact ⟨.InvalidPatchError [], rfl⟩
    by_cases hplus : c = '+'
    · subst hplus
      exact ⟨.InvalidPatchError [], by simp [chunk_line, UpdateFileChunk.grow]⟩
    by_cases hminus : c = '-'
    · subst hminus
      exact ⟨.InvalidPatchError [], by simp [chunk_line, UpdateFileChunk.grow]⟩
    have hnone : chunk_line (c :: t) = none := by simp [chunk_line, hspace, hplus, hminus]
    rw [hnone]
    simp only [List.cons.injEq, hspace, hplus, hminus, false_and, imp_self, implies_true]
    exact ⟨_, rfl⟩

theorem chunk_body_cons {line : Text} (h : line ≠ EOF_MARKER) (rest : List Text)
    (chunk : UpdateFileChunk) (parsed_lines : Nat) {olds news : List Text}
    (hline : chunk_line line = some (olds, news)) :
    chunk_body line_number (line :: rest) chunk parsed_lines =
      chunk_body line_number rest (chunk.grow olds news) (parsed_lines + 1) := by
  obtain ⟨error, hbody⟩ := chunk_body_turn line_number h rest chunk parsed_lines
  rwa [hline] at hbody

/-- A line that is none of a chunk ends the chunk, which has a line. -/
theorem chunk_body_stop {line : Text} {rest : List Text} {chunk chunk' : UpdateFileChunk}
    {parsed_lines n : Nat} (h : line ≠ EOF_MARKER) (hline : chunk_line line = none)
    (hok : chunk_body line_number (line :: rest) chunk parsed_lines = .ok (chunk', n)) :
    chunk' = chunk ∧ n = parsed_lines ∧ parsed_lines ≠ 0 := by
  obtain ⟨error, hbody⟩ := chunk_body_turn line_number h rest chunk parsed_lines
  rw [hok, hline] at hbody
  dsimp only at hbody
  split at hbody
  · cases hbody
  · next hparsed =>
    cases hbody
    exact ⟨rfl, rfl, hparsed⟩

theorem chunk_body_none {line : Text} (rest : List Text) (chunk : UpdateFileChunk)
    {parsed_lines : Nat} (h : line ≠ EOF_MARKER) (hline : chunk_line line = none)
    (hparsed : parsed_lines ≠ 0) :
    chunk_body line_number (line :: rest) chunk parsed_lines = .ok (chunk, parsed_lines) := by
  obtain ⟨error, hbody⟩ := chunk_body_turn line_number h rest chunk parsed_lines
  rw [hbody, hline]
  exact if_neg hparsed

/-- Reading on only adds lines to a chunk. -/
structure Grown (chunk chunk' : UpdateFileChunk) : Prop where
  old_lines : chunk.old_lines <+: chunk'.old_lines
  new_lines : chunk.new_lines <+: chunk'.new_lines
  change_context : chunk'.change_context = chunk.change_context

theorem chunk_body_grown {lines : List Text} {chunk chunk' : UpdateFileChunk}
    {parsed_lines n : Nat}
    (hok : chunk_body line_number lines chunk parsed_lines = .ok (chunk', n)) :
    Grown chunk chunk' := by
  induction lines generalizing chunk parsed_lines with
  | nil =>
    cases hok
    exact ⟨List.prefix_rfl, List.prefix_rfl, rfl⟩
  | cons line rest ih =>
    by_cases heof : line = EOF_MARKER
    · unfold chunk_body at hok
      rw [if_pos heof] at hok
      split at hok
      · cases hok
      · cases hok
        exact ⟨List.prefix_rfl, List.prefix_rfl, rfl⟩
    · cases hline : chunk_line line with
      | none =>
        obtain ⟨rfl, -, -⟩ := chunk_body_stop heof hline hok
        exact ⟨List.prefix_rfl, List.prefix_rfl, rfl⟩
      | some added =>
        rw [chunk_body_cons heof rest chunk parsed_lines hline] at hok
        have hgrown := ih hok
        exact ⟨(List.prefix_append _ _).trans hgrown.old_lines,
          (List.prefix_append _ _).trans hgrown.new_lines, hgrown.change_context⟩

/-- What two chunks that grow to the same one have added to a common one. -/
theorem Grown.lines_eq {chunk chunk' : UpdateFileChunk} {olds olds' news news' : List Text}
    (h : Grown (chunk.grow olds news) chunk') (h' : Grown (chunk.grow olds' news') chunk')
    (hold : olds'.length = olds.length) (hnew : news'.length = news.length) :
    olds' = olds ∧ news' = news := by
  have hsame : chunk.old_lines ++ olds' <+: chunk.old_lines ++ olds :=
    List.prefix_of_prefix_length_le h'.old_lines h.old_lines (by simp [hold])
  have hsame' : chunk.new_lines ++ news' <+: chunk.new_lines ++ news :=
    List.prefix_of_prefix_length_le h'.new_lines h.new_lines (by simp [hnew])
  constructor
  · exact List.append_cancel_left (hsame.eq_of_length (by simp [hold]))
  · exact List.append_cancel_left (hsame'.eq_of_length (by simp [hnew]))

/-- A carriage return at the end of a line of a chunk is text of the chunk. -/
theorem chunk_line_append {l : Text} {olds news : List Text}
    (h : chunk_line (l ++ ['\r']) = some (olds, news)) :
    ∃ olds' news', chunk_line l = some (olds', news') ∧ olds'.length = olds.length ∧
      news'.length = news.length ∧ ¬ (olds' = olds ∧ news' = news) := by
  cases l with
  | nil => simp [chunk_line] at h
  | cons c t =>
    have hne : t ≠ t ++ ['\r'] := by simp
    unfold chunk_line at h
    split at h
    · next hnil => simp at hnil
    · next heq =>
      cases heq
      cases h
      exact ⟨[t], [t], rfl, rfl, rfl, fun hsame => hne (List.singleton_inj.mp hsame.1)⟩
    · next heq =>
      cases heq
      cases h
      exact ⟨[], [t], rfl, rfl, rfl, fun hsame => hne (List.singleton_inj.mp hsame.2)⟩
    · next heq =>
      cases heq
      cases h
      exact ⟨[t], [], rfl, rfl, rfl, fun hsame => hne (List.singleton_inj.mp hsame.1)⟩
    · cases h

theorem exists_chunk_line_bare {line : Text} {added : List Text × List Text}
    (h : chunk_line line = some added) : ∃ added', chunk_line (bare line) = some added' := by
  rcases bare_cases line with ⟨-, hself⟩ | hreturn
  · exact ⟨added, by rwa [hself]⟩
  · obtain ⟨olds, news, hbare, -⟩ := chunk_line_append (l := bare line) (by rwa [← hreturn])
    exact ⟨_, hbare⟩

theorem chunk_line_ne_nil {line : Text} {olds news : List Text}
    (h : chunk_line line = some (olds, news)) : ¬ (olds = [] ∧ news = []) := by
  rintro ⟨rfl, rfl⟩
  unfold chunk_line at h
  split at h <;> cases h

theorem chunk_line_eof : chunk_line EOF_MARKER = none := by decide

theorem chunk_line_ne_eof {line : Text} {added : List Text × List Text}
    (h : chunk_line line = some added) : line ≠ EOF_MARKER := by
  rintro rfl
  rw [chunk_line_eof] at h
  cases h

theorem Copied.of_true {α : Type} {again : Except ParseError (α × Nat)} {value : α} {n : Nat}
    (h : again = .ok (value, n)) : Copied True again value n :=
  ⟨fun _ => h, fun _ _ => trivial⟩

theorem Copied.of_false {α : Type} {again : Except ParseError (α × Nat)} {value : α} {n : Nat}
    (h : ∀ n, again ≠ .ok (value, n)) : Copied False again value n :=
  ⟨False.elim, fun n hn => h n hn⟩

/-- A line that ends a chunk ends it too when it is read bare, unless that makes it a line of
the chunk or the end of file marker. -/
theorem chunk_body_stop_copied {line : Text} (rest : List Text) {chunk : UpdateFileChunk}
    {parsed_lines : Nat} (heof : chunk.is_end_of_file = false) (hne : line ≠ EOF_MARKER)
    (hline : chunk_line line = none) (hparsed : parsed_lines ≠ 0) :
    ∃ kept, Copied kept (chunk_body line_number ((line :: rest).map bare) chunk parsed_lines)
        chunk parsed_lines ∧
      (NoReturnKept .inside (line :: rest) ↔ kept ∧ NoReturnKept .between (line :: rest)) := by
  rw [List.map_cons]
  by_cases hmark : bare line = EOF_MARKER
  · have hreturn : line.getLast? = some '\r' := by
      by_contra hlast
      exact hne (bare_eq_self hlast ▸ hmark)
    refine ⟨False, Copied.of_false ?_, ?_⟩
    · intro n hok
      rw [hmark] at hok
      unfold chunk_body at hok
      rw [if_pos rfl, if_neg hparsed] at hok
      have hchunk := congrArg UpdateFileChunk.is_end_of_file
        (congrArg Prod.fst (Except.ok.inj hok))
      simp [heof] at hchunk
    · rw [noReturnKept_cons (show advance .inside line = (.between, true) by
        simp [advance, hmark])]
      simp [hreturn]
  cases hbare : chunk_line (bare line) with
  | some added =>
    obtain ⟨olds, news⟩ := added
    have hreturn : line.getLast? = some '\r' := by
      by_contra hlast
      rw [bare_eq_self hlast, hline] at hbare
      cases hbare
    refine ⟨False, Copied.of_false ?_, ?_⟩
    · intro n hok
      rw [chunk_body_cons hmark _ _ _ hbare] at hok
      have hgrown := chunk_body_grown hok
      have hlen := hgrown.old_lines.length_le
      have hlen' := hgrown.new_lines.length_le
      simp only [UpdateFileChunk.grow_old_lines, UpdateFileChunk.grow_new_lines,
        List.length_append] at hlen hlen'
      apply chunk_line_ne_nil hbare
      exact ⟨List.length_eq_zero_iff.mp (by omega), List.length_eq_zero_iff.mp (by omega)⟩
    · rw [noReturnKept_cons (show advance .inside line = (.inside, true) by
        simp [advance, hmark, hbare])]
      simp [hreturn]
  | none =>
    refine ⟨True, Copied.of_true (chunk_body_none _ chunk hmark hbare hparsed), ?_⟩
    rw [noReturnKept_cons (show advance .inside line = at_between line by
      simp [advance, hmark, hbare]), noReturnKept_cons (show advance .between line = _ from rfl)]
    simp

/-- The end of file marker ends a chunk. -/
theorem chunk_body_eof_copied (rest : List Text) {chunk chunk' : UpdateFileChunk}
    {parsed_lines n : Nat}
    (hok : chunk_body line_number (EOF_MARKER :: rest) chunk parsed_lines = .ok (chunk', n)) :
    n = parsed_lines + 1 ∧
      chunk_body line_number ((EOF_MARKER :: rest).map bare) chunk parsed_lines = .ok (chunk', n) ∧
      (NoReturnKept .inside (EOF_MARKER :: rest) ↔ NoReturnKept .between rest) := by
  have hbare : bare EOF_MARKER = EOF_MARKER := bare_eq_self (by decide)
  refine ⟨?_, ?_, ?_⟩
  · unfold chunk_body at hok
    rw [if_pos rfl] at hok
    split at hok
    · cases hok
    · cases hok
      rfl
  · rw [List.map_cons, hbare, ← hok]
    unfold chunk_body
    rfl
  · rw [noReturnKept_cons (show advance .inside EOF_MARKER = (.between, true) by
      simp [advance, hbare])]
    exact and_iff_right fun _ => by decide

/-- A line of a chunk is read to the same lines again unless it loses its end. -/
theorem chunk_body_line_copied {line : Text} {rest : List Text} {chunk chunk' : UpdateFileChunk}
    {olds news : List Text} {parsed_lines n k : Nat} {kept : Prop}
    (hline : chunk_line line = some (olds, news))
    (hok : chunk_body line_number rest (chunk.grow olds news) (parsed_lines + 1) = .ok (chunk', n))
    (hcopied : Copied kept
      (chunk_body line_number (rest.map bare) (chunk.grow olds news) (parsed_lines + 1)) chunk' n)
    (hkept : NoReturnKept .inside rest ↔ kept ∧ NoReturnKept .between (rest.drop k)) :
    ∃ kept', Copied kept' (chunk_body line_number ((line :: rest).map bare) chunk parsed_lines)
        chunk' n ∧
      (NoReturnKept .inside (line :: rest) ↔ kept' ∧ NoReturnKept .between (rest.drop k)) := by
  have hmark := chunk_line_ne_eof hline
  rcases bare_cases line with ⟨hlast, hself⟩ | hreturn
  · refine ⟨kept, ?_, ?_⟩
    · rw [List.map_cons, hself, chunk_body_cons hmark _ _ _ hline]
      exact hcopied
    · rw [noReturnKept_cons (show advance .inside line = (.inside, true) by
        simp [advance, hself, hmark, hline]), ← hkept]
      exact and_iff_right fun _ => hlast
  · obtain ⟨olds', news', hbare, hold, hnew, hdiffer⟩ :=
      chunk_line_append (l := bare line) (by rwa [← hreturn])
    have hmark' : bare line ≠ EOF_MARKER := chunk_line_ne_eof hbare
    refine ⟨False, Copied.of_false ?_, ?_⟩
    · intro n hagain
      rw [List.map_cons, chunk_body_cons hmark' _ _ _ hbare] at hagain
      exact hdiffer ((chunk_body_grown hok).lines_eq (chunk_body_grown hagain) hold hnew)
    · rw [noReturnKept_cons (show advance .inside line = (.inside, true) by
        simp [advance, hmark', hbare])]
      have hlast : line.getLast? = some '\r' := by
        rw [hreturn, List.getLast?_concat]
      simp [hlast]

/-- Reading the lines of a chunk again. -/
theorem chunk_body_copied {lines : List Text} {chunk chunk' : UpdateFileChunk}
    {parsed_lines n : Nat} (heof : chunk.is_end_of_file = false)
    (hok : chunk_body line_number lines chunk parsed_lines = .ok (chunk', n)) :
    ∃ kept k, n = parsed_lines + k ∧
      Copied kept (chunk_body line_number (lines.map bare) chunk parsed_lines) chunk' n ∧
      (NoReturnKept .inside lines ↔ kept ∧ NoReturnKept .between (lines.drop k)) := by
  induction lines generalizing chunk parsed_lines with
  | nil =>
    cases hok
    exact ⟨True, 0, rfl, Copied.of_true rfl, by simp [NoReturnKept]⟩
  | cons line rest ih =>
    by_cases hmark : line = EOF_MARKER
    · subst hmark
      obtain ⟨hn, hagain, hkept⟩ := chunk_body_eof_copied rest hok
      exact ⟨True, 1, hn, Copied.of_true hagain, by simpa using hkept⟩
    cases hline : chunk_line line with
    | none =>
      obtain ⟨rfl, rfl, hparsed⟩ := chunk_body_stop hmark hline hok
      obtain ⟨kept, hcopied, hkept⟩ :=
        chunk_body_stop_copied rest heof hmark hline hparsed
      exact ⟨kept, 0, rfl, hcopied, hkept⟩
    | some added =>
      obtain ⟨olds, news⟩ := added
      rw [chunk_body_cons hmark rest chunk parsed_lines hline] at hok
      obtain ⟨kept, k, hn, hcopied, hkept⟩ := ih (by simpa using heof) hok
      obtain ⟨kept', hcopied', hkept'⟩ := chunk_body_line_copied hline hok hcopied hkept
      exact ⟨kept', k + 1, by omega, hcopied', hkept'⟩

/-! ### The first line of a chunk -/

/-- The context of a chunk and the lines it takes, when the line can start a chunk. -/
def chunk_start (first : Text) (allow_missing_context : Bool) : Option (Option Text × Nat) :=
  if first = EMPTY_CHANGE_CONTEXT_MARKER then some (none, 1)
  else match Text.strip_prefix first CHANGE_CONTEXT_MARKER with
    | some context => some (some context, 1)
    | none => if allow_missing_context then some (none, 0) else none

/-- A chunk before its lines. -/
def started (change_context : Option Text) : UpdateFileChunk :=
  { change_context, old_lines := [], new_lines := [], is_end_of_file := false }

/-- What is left of the reading of a chunk when its start is known. -/
theorem started_eq_ok (lines : List Text) (change_context : Option Text) (start_index : Nat)
    {chunk : UpdateFileChunk} {n : Nat} :
    (if lines.length ≤ start_index then
      Except.error (ParseError.InvalidHunkError NO_LINES (line_number + 1))
    else (chunk_body line_number (lines.drop start_index) (started change_context) 0).bind
      fun read => .ok (read.1, read.2 + start_index)) = .ok (chunk, n) ↔
    start_index < lines.length ∧ ∃ parsed_lines,
      chunk_body line_number (lines.drop start_index) (started change_context) 0 =
        .ok (chunk, parsed_lines) ∧
      n = parsed_lines + start_index := by
  by_cases hlen : lines.length ≤ start_index
  · rw [if_pos hlen]
    constructor
    · intro h
      cases h
    · rintro ⟨hlt, -⟩
      omega
  · rw [if_neg hlen, and_iff_right (by omega)]
    cases chunk_body line_number (lines.drop start_index) (started change_context) 0 with
    | error e =>
      constructor
      · intro h
        cases h
      · rintro ⟨parsed_lines, h, -⟩
        cases h
    | ok r =>
      constructor
      · intro h
        cases h
        exact ⟨_, rfl, rfl⟩
      · rintro ⟨parsed_lines, h, rfl⟩
        cases h
        rfl

theorem parse_update_file_chunk_eq_ok {first : Text} {rest : List Text} {allow : Bool}
    {chunk : UpdateFileChunk} {n : Nat} :
    parse_update_file_chunk (first :: rest) line_number allow = .ok (chunk, n) ↔
      ∃ change_context start_index parsed_lines,
        chunk_start first allow = some (change_context, start_index) ∧
        start_index < (first :: rest).length ∧
        chunk_body line_number ((first :: rest).drop start_index) (started change_context) 0 =
          .ok (chunk, parsed_lines) ∧
        n = parsed_lines + start_index := by
  unfold parse_update_file_chunk chunk_start
  dsimp only
  by_cases hempty : first = EMPTY_CHANGE_CONTEXT_MARKER
  · rw [if_pos hempty, if_pos hempty]
    refine (started_eq_ok (first :: rest) none 1).trans ?_
    simp [Nat.succ_le_iff]
  · rw [if_neg hempty, if_neg hempty]
    cases Text.strip_prefix first CHANGE_CONTEXT_MARKER with
    | some context =>
      refine (started_eq_ok (first :: rest) (some context) 1).trans ?_
      simp [Nat.succ_le_iff]
    | none =>
      cases allow with
      | true =>
        refine (started_eq_ok (first :: rest) none 0).trans ?_
        simp
      | false =>
        constructor
        · intro h
          cases h
        · rintro ⟨change_context, start_index, parsed_lines, h, -⟩
          cases h

theorem chunk_start_of_line {line : Text} {added : List Text × List Text} (allow : Bool)
    (h : chunk_line line = some added) :
    chunk_start line allow = if allow then some (none, 0) else none := by
  unfold chunk_line at h
  split at h
  · rfl
  · rfl
  · rfl
  · rfl
  · cases h

theorem chunk_start_of_context {line context : Text} (allow : Bool)
    (h : Text.strip_prefix line CHANGE_CONTEXT_MARKER = some context) :
    chunk_start line allow = some (some context, 1) := by
  unfold chunk_start
  rw [if_neg, h]
  rintro rfl
  cases h

/-- A chunk whose first line starts it as the bare one does is read from the bare lines when the
lines after its start are. -/
theorem chunk_copied_of_start {kept : Prop} {first : Text} {rest : List Text} {allow : Bool}
    {change_context : Option Text} {start_index parsed_lines : Nat} {chunk : UpdateFileChunk}
    (hlen : start_index < (first :: rest).length)
    (hcopied : Copied kept (chunk_body line_number (((first :: rest).drop start_index).map bare)
      (started change_context) 0) chunk parsed_lines)
    (hstart : chunk_start (bare first) allow = some (change_context, start_index)) :
    Copied kept (parse_update_file_chunk ((first :: rest).map bare) line_number allow) chunk
      (parsed_lines + start_index) := by
  rw [List.map_drop] at hcopied
  constructor
  · intro h
    apply parse_update_file_chunk_eq_ok.mpr
    exact ⟨change_context, start_index, parsed_lines, hstart, by simpa using hlen, hcopied.same h,
      rfl⟩
  · intro n hagain
    obtain ⟨context, start, m, hstart', -, hbody, -⟩ := parse_update_file_chunk_eq_ok.mp hagain
    rw [hstart] at hstart'
    cases hstart'
    exact hcopied.only m hbody

/-- A chunk is not read from lines that give it another context. -/
theorem other_context_not_read {first context : Text} {rest : List Text} {allow : Bool}
    {chunk : UpdateFileChunk} (hcontext : chunk.change_context = some (context ++ ['\r']))
    (hstart : chunk_start first allow = some (some context, 1)) (n : Nat) :
    parse_update_file_chunk (first :: rest) line_number allow ≠ .ok (chunk, n) := by
  intro hok
  obtain ⟨c, start, m, hstart', -, hbody, -⟩ := parse_update_file_chunk_eq_ok.mp hok
  rw [hstart] at hstart'
  cases hstart'
  have hsame := (chunk_body_grown hbody).change_context.symm.trans hcontext
  have hlen := congrArg List.length (Option.some.inj hsame)
  simp at hlen

/-- The context of a chunk is read again unless its line loses its end. -/
theorem context_line_copied {kept after : Prop} {first context : Text} {rest : List Text}
    {allow : Bool} {chunk : UpdateFileChunk} {n : Nat}
    (hadvance : advance .between first = (.inside, true))
    (hcontext : Text.strip_prefix first CHANGE_CONTEXT_MARKER = some context)
    (hchunk : chunk.change_context = some context)
    (hsame : chunk_start (bare first) allow = some (some context, 1) →
      Copied kept (parse_update_file_chunk ((first :: rest).map bare) line_number allow) chunk n)
    (hkept : NoReturnKept .inside rest ↔ kept ∧ after) :
    ∃ kept', Copied kept'
        (parse_update_file_chunk ((first :: rest).map bare) line_number allow) chunk n ∧
      (NoReturnKept .between (first :: rest) ↔ kept' ∧ after) := by
  rw [noReturnKept_cons hadvance]
  rcases bare_cases first with ⟨hlast, hself⟩ | hreturn
  · refine ⟨kept, hsame ?_, (and_iff_right fun _ => hlast).trans hkept⟩
    rw [hself]
    exact chunk_start_of_context allow hcontext
  · -- the context of the bare line is another one
    rw [hreturn, Text.strip_prefix_append_return (by decide)] at hcontext
    obtain ⟨context', hcontext', rfl⟩ := Option.map_eq_some_iff.mp hcontext
    refine ⟨False, Copied.of_false ?_, ?_⟩
    · exact other_context_not_read hchunk (chunk_start_of_context allow hcontext')
    · have hlast : first.getLast? = some '\r' := by
        rw [hreturn, List.getLast?_concat]
      simp [hlast]

/-- The first line of a chunk that is read has the end of its context, or is a line itself. -/
theorem parse_update_file_chunk_copied {first : Text} {rest : List Text} {allow : Bool}
    {chunk : UpdateFileChunk} {n : Nat} (htrim : Text.trim first ≠ [])
    (hstar : Text.starts_with first "***".toList = false)
    (hok : parse_update_file_chunk (first :: rest) line_number allow = .ok (chunk, n)) :
    ∃ kept, 0 < n ∧
      Copied kept (parse_update_file_chunk ((first :: rest).map bare) line_number allow) chunk n ∧
      (NoReturnKept .between (first :: rest) ↔
        kept ∧ NoReturnKept .between ((first :: rest).drop n)) := by
  have hadvance : advance .between first = (.inside, true) := by
    simp only [advance, at_between, htrim, hstar, if_false, Bool.false_eq_true]
  obtain ⟨change_context, start_index, parsed_lines, hstart, hlen, hbody, rfl⟩ :=
    parse_update_file_chunk_eq_ok.mp hok
  obtain ⟨kept, k, hk, hcopied, hkept⟩ := chunk_body_copied rfl hbody
  rw [Nat.zero_add] at hk
  subst hk
  rw [List.drop_drop, Nat.add_comm start_index] at hkept
  have hsame := @chunk_copied_of_start line_number _ _ _ allow _ _ _ _ hlen hcopied
  unfold chunk_start at hstart
  split at hstart
  · next hempty =>
    cases hstart
    have hself : bare first = first := by
      rw [hempty]
      exact bare_eq_self (by decide)
    refine ⟨kept, Nat.succ_pos _, hsame ?_, ?_⟩
    · rw [hself, hempty]
      rfl
    · rw [noReturnKept_cons hadvance]
      refine (and_iff_right fun _ => ?_).trans hkept
      rw [hempty]
      decide
  · split at hstart
    · next context hcontext =>
      cases hstart
      have hchunk := (chunk_body_grown hbody).change_context
      obtain ⟨kept', hcopied', hkept'⟩ := context_line_copied hadvance hcontext hchunk hsame hkept
      exact ⟨kept', Nat.succ_pos _, hcopied', hkept'⟩
    · split at hstart
      · next hallow =>
        cases hstart
        rw [List.drop_zero] at hbody hkept
        have hmark : first ≠ EOF_MARKER := by
          rintro rfl
          unfold chunk_body at hbody
          rw [if_pos rfl, if_pos rfl] at hbody
          cases hbody
        cases hline : chunk_line first with
        | none =>
          obtain ⟨-, -, hzero⟩ := chunk_body_stop hmark hline hbody
          exact absurd rfl hzero
        | some added =>
          obtain ⟨added', hbare⟩ := exists_chunk_line_bare hline
          have hmark' : bare first ≠ EOF_MARKER := chunk_line_ne_eof hbare
          rw [chunk_body_cons hmark _ _ _ hline] at hbody
          obtain ⟨-, k, hparsed, -⟩ := chunk_body_copied rfl hbody
          refine ⟨kept, by omega, hsame ?_, ?_⟩
          · rw [chunk_start_of_line allow hbare, hallow]
            rfl
          · rw [← hkept, noReturnKept_cons hadvance,
              noReturnKept_cons (show advance .inside first = (.inside, true) by
                simp [advance, hmark', hbare])]
      · cases hstart

end chunk

/-! ## The chunks of an update -/

section chunks

variable {line_number : Nat}

theorem parse_chunks_blank {first : Text} (h : Text.trim first = []) (fuel : Nat)
    (rest : List Text) (parsed_lines : Nat) (chunks : List UpdateFileChunk) :
    parse_chunks line_number (fuel + 1) (first :: rest) parsed_lines chunks =
      parse_chunks line_number fuel rest (parsed_lines + 1) chunks := by
  rw [parse_chunks, if_pos h]

theorem parse_chunks_star {first : Text} (h : Text.trim first ≠ [])
    (hstar : Text.starts_with first "***".toList = true) (fuel : Nat)
    (rest : List Text) (parsed_lines : Nat) (chunks : List UpdateFileChunk) :
    parse_chunks line_number (fuel + 1) (first :: rest) parsed_lines chunks =
      .ok (chunks, parsed_lines) := by
  rw [parse_chunks, if_neg h, if_pos hstar]

theorem parse_chunks_chunk {first : Text} {rest : List Text} (h : Text.trim first ≠ [])
    (hstar : Text.starts_with first "***".toList = false) {fuel parsed_lines : Nat}
    {chunks : List UpdateFileChunk} {r : List UpdateFileChunk × Nat} :
    parse_chunks line_number (fuel + 1) (first :: rest) parsed_lines chunks = .ok r ↔
      ∃ chunk n, parse_update_file_chunk (first :: rest) (line_number + parsed_lines)
          chunks.isEmpty = .ok (chunk, n) ∧
        parse_chunks line_number fuel ((first :: rest).drop n) (parsed_lines + n)
          (chunks ++ [chunk]) = .ok r := by
  rw [parse_chunks, if_neg h, if_neg (by simp only [hstar, Bool.false_eq_true, not_false_eq_true])]
  cases parse_update_file_chunk (first :: rest) (line_number + parsed_lines) chunks.isEmpty with
  | error e =>
    constructor
    · nofun
    · rintro ⟨chunk, n, hchunk, -⟩
      cases hchunk
  | ok found =>
    constructor
    · intro hok
      exact ⟨found.1, found.2, rfl, hok⟩
    · rintro ⟨chunk, n, hchunk, hok⟩
      cases hchunk
      exact hok

/-- Reading on only adds chunks. -/
theorem parse_chunks_grown {fuel : Nat} {lines : List Text} {parsed_lines n : Nat}
    {chunks chunks' : List UpdateFileChunk}
    (hok : parse_chunks line_number fuel lines parsed_lines chunks = .ok (chunks', n)) :
    chunks <+: chunks' := by
  induction fuel generalizing lines parsed_lines chunks with
  | zero =>
    cases lines <;> cases hok <;> exact List.prefix_rfl
  | succ fuel ih =>
    cases lines with
    | nil =>
      cases hok
      exact List.prefix_rfl
    | cons first rest =>
      by_cases htrim : Text.trim first = []
      · rw [parse_chunks_blank htrim] at hok
        exact ih hok
      · cases hstar : Text.starts_with first "***".toList with
        | true =>
          rw [parse_chunks_star htrim hstar] at hok
          cases hok
          exact List.prefix_rfl
        | false =>
          obtain ⟨chunk, k, -, hok⟩ := (parse_chunks_chunk htrim hstar).mp hok
          exact (List.prefix_append _ _).trans (ih hok)

/-- What follows the chunks is the first line of a hunk, and is read as such. -/
theorem parse_chunks_copied {fuel : Nat} {lines : List Text} {parsed_lines n : Nat}
    {chunks chunks' : List UpdateFileChunk} (hfuel : lines.length ≤ fuel)
    (hok : parse_chunks line_number fuel lines parsed_lines chunks = .ok (chunks', n)) :
    ∃ kept k, n = parsed_lines + k ∧
      Copied kept (parse_chunks line_number fuel (lines.map bare) parsed_lines chunks) chunks' n ∧
      (NoReturnKept .between lines ↔ kept ∧ NoReturnKept .header (lines.drop k)) := by
  induction fuel generalizing lines parsed_lines chunks with
  | zero =>
    obtain rfl := List.length_eq_zero_iff.mp (Nat.le_zero.mp hfuel)
    cases hok
    exact ⟨True, 0, rfl, Copied.of_true rfl, by simp [NoReturnKept]⟩
  | succ fuel ih =>
    cases lines with
    | nil =>
      cases hok
      exact ⟨True, 0, rfl, Copied.of_true rfl, by simp [NoReturnKept]⟩
    | cons first rest =>
      have hlen : rest.length ≤ fuel := by simpa using hfuel
      by_cases htrim : Text.trim first = []
      · rw [parse_chunks_blank htrim] at hok
        obtain ⟨kept, k, hn, hcopied, hkept⟩ := ih hlen hok
        refine ⟨kept, k + 1, by omega, ?_, ?_⟩
        · rw [List.map_cons, parse_chunks_blank (by rwa [Text.trim_bare])]
          exact hcopied
        · rw [noReturnKept_cons (show advance .between first = (.between, false) by
            simp [advance, at_between, htrim])]
          simpa using hkept
      cases hstar : Text.starts_with first "***".toList with
      | true =>
        rw [parse_chunks_star htrim hstar] at hok
        cases hok
        refine ⟨True, 0, rfl, Copied.of_true ?_, ?_⟩
        · rw [List.map_cons, parse_chunks_star (by rwa [Text.trim_bare])
            (by rwa [Text.starts_with_bare (by decide)])]
        · rw [true_and, List.drop_zero, noReturnKept_cons (show advance .header first = _ from rfl),
            noReturnKept_cons (show advance .between first = (at_header first, false) by
              simp only [advance, at_between, htrim, hstar, if_false, if_true])]
      | false =>
        obtain ⟨chunk, m, hchunk, hok⟩ := (parse_chunks_chunk htrim hstar).mp hok
        obtain ⟨kept, hpos, hcopied, hkept⟩ := parse_update_file_chunk_copied htrim hstar hchunk
        obtain ⟨kept', k, hn, hcopied', hkept'⟩ := ih (by simp; omega) hok
        have htrim' : Text.trim (bare first) ≠ [] := by rwa [Text.trim_bare]
        have hstar' : Text.starts_with (bare first) "***".toList = false := by
          rwa [Text.starts_with_bare (by decide)]
        rw [List.map_drop] at hcopied'
        rw [List.drop_drop] at hkept'
        refine ⟨kept ∧ kept', m + k, by omega, ⟨?_, ?_⟩, ?_⟩
        · rintro ⟨h, h'⟩
          exact (parse_chunks_chunk htrim' hstar').mpr ⟨chunk, m, hcopied.same h, hcopied'.same h'⟩
        · intro n' hagain
          obtain ⟨chunk'', m', hchunk', hagain⟩ := (parse_chunks_chunk htrim' hstar').mp hagain
          -- both lists of chunks begin with the chunks before and this chunk
          have hbegins : chunks ++ [chunk''] <+: chunks ++ [chunk] :=
            List.prefix_of_prefix_length_le (parse_chunks_grown hagain) (parse_chunks_grown hok)
              (by simp)
          have hsame := List.append_cancel_left (hbegins.eq_of_length (by simp))
          rw [List.singleton_inj] at hsame
          subst hsame
          have h := hcopied.only m' hchunk'
          have hm := hcopied.same h
          rw [List.map_cons, hchunk'] at hm
          cases hm
          exact ⟨h, hcopied'.only n' hagain⟩
        · rw [hkept, hkept', and_assoc]

end chunks

/-! ## One hunk -/

theorem length_terminated_cons (t : Text) (ts : List Text) :
    (Text.terminated (t :: ts)).length = t.length + 1 + (Text.terminated ts).length := by
  simp [Text.terminated]
  omega

theorem added_lines_of_other {line : Text} (h : line.head? ≠ some '+') (lines : List Text) :
    added_lines (line :: lines) = [] := by
  unfold added_lines
  split
  · next heq =>
    cases heq
    exact absurd rfl h
  · rfl

theorem head_bare_ne {line : Text} {c : Char} (h : line.head? ≠ some c) :
    (bare line).head? ≠ some c := by
  rcases bare_cases line with ⟨-, hself⟩ | hreturn
  · rwa [hself]
  · intro hhead
    apply h
    rw [hreturn, List.head?_append, hhead]
    rfl

/-- An added line is bare, or its text is the bare one with a carriage return. -/
theorem bare_added_cases (t : Text) :
    ('+' :: t).getLast? ≠ some '\r' ∧ bare ('+' :: t) = '+' :: t ∨
      ∃ u, t = u ++ ['\r'] ∧ bare ('+' :: t) = '+' :: u := by
  rcases bare_cases ('+' :: t) with hself | hreturn
  · exact .inl hself
  · right
    cases hbare : bare ('+' :: t) with
    | nil =>
      rw [hbare] at hreturn
      cases hreturn
    | cons c u =>
      rw [hbare] at hreturn
      obtain ⟨rfl, ht⟩ := List.cons.inj hreturn
      exact ⟨u, ht, rfl⟩

/-- The lines of an added file, read bare, are no longer than they were, and as long just when
they are the same. -/
theorem added_lines_bare (lines : List Text) :
    ∃ kept, (NoReturnKept .added lines ↔
        kept ∧ NoReturnKept .header (lines.drop (added_lines lines).length)) ∧
      (kept → added_lines (lines.map bare) = added_lines lines) ∧
      (Text.terminated (added_lines (lines.map bare))).length ≤
        (Text.terminated (added_lines lines)).length ∧
      ((Text.terminated (added_lines (lines.map bare))).length =
        (Text.terminated (added_lines lines)).length → kept) := by
  induction lines with
  | nil => exact ⟨True, by simp [NoReturnKept], fun _ => rfl, Nat.le_refl _, fun _ => trivial⟩
  | cons line rest ih =>
    obtain ⟨kept, hkept, hsame, hle, heq⟩ := ih
    by_cases hplus : line.head? = some '+'
    · obtain ⟨t, rfl⟩ := List.head?_eq_some_iff.mp hplus
      have hadvance : advance .added ('+' :: t) = (.added, true) := rfl
      rcases bare_added_cases t with ⟨hlast, hself⟩ | ⟨u, rfl, hbare⟩
      · refine ⟨kept, ?_, ?_, ?_, ?_⟩
        · rw [noReturnKept_cons hadvance]
          exact (and_iff_right fun _ => hlast).trans hkept
        · intro h
          rw [List.map_cons, hself, added_lines, added_lines, hsame h]
        · rw [List.map_cons, hself, added_lines, added_lines, length_terminated_cons,
            length_terminated_cons]
          omega
        · rw [List.map_cons, hself, added_lines, added_lines, length_terminated_cons,
            length_terminated_cons]
          intro h
          exact heq (by omega)
      · have hshort : (u ++ ['\r']).length = u.length + 1 := by simp
        refine ⟨False, ?_, False.elim, ?_, ?_⟩
        · rw [noReturnKept_cons hadvance]
          have hlast : ('+' :: (u ++ ['\r'])).getLast? = some '\r' := by
            rw [← List.cons_append, List.getLast?_concat]
          simp [hlast]
        · rw [List.map_cons, hbare, added_lines, added_lines, length_terminated_cons,
            length_terminated_cons]
          omega
        · rw [List.map_cons, hbare, added_lines, added_lines, length_terminated_cons,
            length_terminated_cons]
          omega
    · have hplus' := head_bare_ne hplus
      refine ⟨True, ?_, ?_, ?_, fun _ => trivial⟩
      · have hadvance : advance .added line = (at_header line, false) := by
          simp [advance, hplus]
        rw [added_lines_of_other hplus, noReturnKept_cons hadvance, true_and, List.length_nil,
          List.drop_zero, noReturnKept_cons (show advance .header line = _ from rfl)]
      · intro _
        rw [List.map_cons, added_lines_of_other hplus, added_lines_of_other hplus']
      · rw [List.map_cons, added_lines_of_other hplus, added_lines_of_other hplus']

/-- A carriage return at the end of a path is one at the end of its last part. -/
theorem split_append_return (t : Text) : ∃ ps last, Text.split '/' t = ps ++ [last] ∧
    Text.split '/' (t ++ ['\r']) = ps ++ [last ++ ['\r']] := by
  induction t with
  | nil => exact ⟨[], [], rfl, rfl⟩
  | cons c t ih =>
    obtain ⟨ps, last, hps, hps'⟩ := ih
    by_cases hc : c = '/'
    · refine ⟨[] :: ps, last, ?_, ?_⟩
      · rw [Text.split, if_pos hc, hps, List.cons_append]
      · rw [List.cons_append, Text.split, if_pos hc, hps', List.cons_append]
    · cases ps with
      | nil =>
        refine ⟨[], c :: last, ?_, ?_⟩
        · rw [Text.split, if_neg hc, hps]
          rfl
        · rw [List.cons_append, Text.split, if_neg hc, hps']
          rfl
      | cons p ps =>
        refine ⟨(c :: p) :: ps, last, ?_, ?_⟩
        · rw [Text.split, if_neg hc, hps]
          rfl
        · rw [List.cons_append, Text.split, if_neg hc, hps']
          rfl

theorem append_return_ne {u : Text} {c : Char} (last : Text) (h : u.getLast? = some c)
    (hc : c ≠ '\r') : last ++ ['\r'] ≠ u := by
  rintro rfl
  rw [List.getLast?_concat] at h
  exact hc (Option.some.inj h).symm

theorem piece_append_return (last : Text) :
    Path.piece (last ++ ['\r']) = [.Normal (last ++ ['\r'])] := by
  unfold Path.piece
  rw [if_neg, if_neg]
  · exact append_return_ne (c := '.') last rfl (by decide)
  · rintro (h | h)
    · simp at h
    · exact append_return_ne (c := '.') last rfl (by decide) h

/-- A file name with a carriage return at its end is another one. -/
theorem of_text_append_return (t : Text) : Path.of_text (t ++ ['\r']) ≠ Path.of_text t := by
  obtain ⟨ps, last, hps, hps'⟩ := split_append_return t
  have hdiffer : Path.piece last ≠ [.Normal (last ++ ['\r'])] := by
    unfold Path.piece
    split
    · simp
    · split
      · simp
      · simp
  intro heq
  unfold Path.of_text at heq
  rw [hps, hps'] at heq
  cases ps with
  | nil =>
    dsimp only [List.nil_append] at heq
    rw [if_neg (by simp), if_neg (append_return_ne (c := '.') last rfl (by decide)),
      List.flatMap_singleton, piece_append_return] at heq
    split at heq
    · simp at heq
    · split at heq
      · simp at heq
      · rw [List.flatMap_singleton] at heq
        exact hdiffer heq.symm
  | cons p ps =>
    have hne : t ≠ [] := by
      rintro rfl
      simp [Text.split] at hps
    have hrest : ∀ u, (ps ++ [u]).flatMap Path.piece = ps.flatMap Path.piece ++ Path.piece u := by
      intro u
      rw [List.flatMap_append, List.flatMap_singleton]
    dsimp only [List.cons_append] at heq
    rw [List.flatMap_cons, List.flatMap_cons, hrest, hrest, piece_append_return] at heq
    by_cases hp : p = []
    · rw [if_pos ⟨hp, by simp⟩, if_pos ⟨hp, hne⟩] at heq
      rw [List.cons_inj_right] at heq
      exact hdiffer (List.append_cancel_left heq).symm
    · have hroot : ∀ u : Text, ¬ (p = [] ∧ u ≠ []) := fun u h => hp h.1
      rw [if_neg (hroot (t ++ ['\r'])), if_neg (hroot t)] at heq
      split at heq
      · rw [List.cons_inj_right] at heq
        exact hdiffer (List.append_cancel_left heq).symm
      · exact hdiffer (List.append_cancel_left (List.append_cancel_left heq)).symm

section hunk

variable {line_number : Nat}

/-- What `parse_one_hunk` does with the chunks of an update. -/
theorem update_eq_ok {path : Path} {move_path : Option Path} {fuel parsed_lines n : Nat}
    {lines : List Text} {hunk : Hunk} {e : ParseError} :
    (do
      let (chunks, parsed_lines) ← parse_chunks line_number fuel lines parsed_lines []
      if chunks.isEmpty then .error e
      else .ok (Hunk.UpdateFile path move_path chunks, parsed_lines)) = .ok (hunk, n) ↔
    ∃ chunks, parse_chunks line_number fuel lines parsed_lines [] = .ok (chunks, n) ∧
      chunks ≠ [] ∧ hunk = .UpdateFile path move_path chunks := by
  cases parse_chunks line_number fuel lines parsed_lines [] with
  | error e => exact ⟨nofun, nofun⟩
  | ok r =>
    obtain ⟨chunks, m⟩ := r
    by_cases hempty : chunks = []
    · subst hempty
      refine ⟨nofun, ?_⟩
      rintro ⟨chunks, h, hne, -⟩
      cases h
      exact absurd rfl hne
    · have hfalse : chunks.isEmpty = false := by simpa using hempty
      constructor
      · intro h
        change (if _ then _ else _) = _ at h
        rw [hfalse, if_neg (by decide)] at h
        cases h
        exact ⟨chunks, rfl, hempty, rfl⟩
      · rintro ⟨chunks', h, -, rfl⟩
        cases h
        change (if _ then _ else _) = _
        rw [hfalse, if_neg (by decide)]

section header

variable {first path : Text} {rest : List Text} {n : Nat} {hunk : Hunk}
  (hadd : Text.strip_prefix (Text.trim first) ADD_FILE_MARKER = none)
  (hdelete : Text.strip_prefix (Text.trim first) DELETE_FILE_MARKER = none)
  (hupdate : Text.strip_prefix (Text.trim first) UPDATE_FILE_MARKER = some path)
include hadd hdelete hupdate

/-- An update that moves no file is read from the lines after its header. -/
theorem parse_one_hunk_unmoved
    (hmove : (rest.head?.bind fun line => Text.strip_prefix line MOVE_TO_MARKER) = none) :
    parse_one_hunk (first :: rest) line_number = .ok (hunk, n) ↔
      ∃ chunks, parse_chunks line_number rest.length rest 1 [] = .ok (chunks, n) ∧ chunks ≠ [] ∧
        hunk = .UpdateFile (Path.of_text path) none chunks := by
  unfold parse_one_hunk
  simp only [List.headD_cons, List.tail_cons, hadd, hdelete, hupdate, hmove]
  exact update_eq_ok

/-- An update that moves the file is read from the lines after the line of its new path. -/
theorem parse_one_hunk_moved {line moved : Text}
    (hmoved : Text.strip_prefix line MOVE_TO_MARKER = some moved) :
    parse_one_hunk (first :: line :: rest) line_number = .ok (hunk, n) ↔
      ∃ chunks, parse_chunks line_number rest.length rest 2 [] = .ok (chunks, n) ∧ chunks ≠ [] ∧
        hunk = .UpdateFile (Path.of_text path) (some (Path.of_text moved)) chunks := by
  unfold parse_one_hunk
  simp only [List.headD_cons, List.tail_cons, List.head?_cons, Option.bind_some, hadd, hdelete,
    hupdate, hmoved]
  exact update_eq_ok

end header

/-- The place after the header of an update and the line of its new path. -/
theorem noReturnKept_updated {lines : List Text}
    (h : (lines.head?.bind fun line => Text.strip_prefix line MOVE_TO_MARKER) = none) :
    NoReturnKept .updated lines ↔ NoReturnKept .between lines := by
  cases lines with
  | nil => rfl
  | cons line rest =>
    have hmove : Text.strip_prefix line MOVE_TO_MARKER = none := h
    rw [noReturnKept_cons (show advance .updated line = at_between line by simp [advance, hmove]),
      noReturnKept_cons (show advance .between line = _ from rfl)]

/-- An update is read from the bare lines when its chunks are, and then only. -/
theorem update_copied_of_chunks {kept : Prop} {again : Except ParseError (Hunk × Nat)}
    {path : Path} {move_path : Option Path} {chunks : List UpdateFileChunk}
    {fuel parsed_lines n : Nat} {lines : List Text}
    (hagain : ∀ hunk n, again = .ok (hunk, n) ↔
      ∃ chunks, parse_chunks line_number fuel lines parsed_lines [] = .ok (chunks, n) ∧
        chunks ≠ [] ∧ hunk = .UpdateFile path move_path chunks)
    (hne : chunks ≠ [])
    (hcopied : Copied kept (parse_chunks line_number fuel lines parsed_lines []) chunks n) :
    Copied kept again (.UpdateFile path move_path chunks) n := by
  constructor
  · intro h
    exact (hagain _ _).mpr ⟨chunks, hcopied.same h, hne, rfl⟩
  · intro n hn
    obtain ⟨chunks', hchunks', -, heq⟩ := (hagain _ _).mp hn
    injection heq with _ _ heq
    rw [← heq] at hchunks'
    exact hcopied.only n hchunks'

section update

variable {first path : Text} {rest : List Text} {hunk : Hunk} {n : Nat}
  (hadd : Text.strip_prefix (Text.trim first) ADD_FILE_MARKER = none)
  (hdelete : Text.strip_prefix (Text.trim first) DELETE_FILE_MARKER = none)
  (hupdate : Text.strip_prefix (Text.trim first) UPDATE_FILE_MARKER = some path)
include hadd hdelete hupdate

/-- Reading the lines of an update again that moves no file. -/
theorem unmoved_copied
    (hmove : (rest.head?.bind fun line => Text.strip_prefix line MOVE_TO_MARKER) = none)
    (hok : parse_one_hunk (first :: rest) line_number = .ok (hunk, n)) :
    ∃ kept, 0 < n ∧
      Copied kept (parse_one_hunk ((first :: rest).map bare) line_number) hunk n ∧
      (NoReturnKept .updated rest ↔ kept ∧ NoReturnKept .header ((first :: rest).drop n)) := by
  have hmove' : ((rest.map bare).head?.bind fun line =>
      Text.strip_prefix line MOVE_TO_MARKER) = none := by
    cases rest with
    | nil => rfl
    | cons line rest =>
      have hsome := Text.strip_prefix_isSome_bare (p := MOVE_TO_MARKER) (by decide) line
      rw [show Text.strip_prefix line MOVE_TO_MARKER = none from hmove] at hsome
      simpa using hsome
  obtain ⟨chunks, hchunks, hne, rfl⟩ :=
    (parse_one_hunk_unmoved hadd hdelete hupdate hmove).mp hok
  obtain ⟨kept, k, rfl, hcopied, hkept⟩ := parse_chunks_copied (Nat.le_refl _) hchunks
  refine ⟨kept, by omega, update_copied_of_chunks ?_ hne hcopied, ?_⟩
  · intro hunk n
    rw [← Text.trim_bare] at hadd hdelete hupdate
    rw [List.map_cons, parse_one_hunk_unmoved hadd hdelete hupdate hmove', List.length_map]
  · rw [noReturnKept_updated hmove, hkept, Nat.add_comm 1 k, List.drop_succ_cons]

/-- Reading the lines of an update again that moves the file: the line of the new path is kept. -/
theorem moved_copied {line moved : Text}
    (hmoved : Text.strip_prefix line MOVE_TO_MARKER = some moved)
    (hok : parse_one_hunk (first :: line :: rest) line_number = .ok (hunk, n)) :
    ∃ kept, 0 < n ∧
      Copied kept (parse_one_hunk ((first :: line :: rest).map bare) line_number) hunk n ∧
      (NoReturnKept .updated (line :: rest) ↔
        kept ∧ NoReturnKept .header ((first :: line :: rest).drop n)) := by
  obtain ⟨chunks, hchunks, hne, rfl⟩ :=
    (parse_one_hunk_moved hadd hdelete hupdate hmoved).mp hok
  obtain ⟨kept, k, rfl, hcopied, hkept⟩ := parse_chunks_copied (Nat.le_refl _) hchunks
  have hadvance : advance .updated line = (.between, true) := by
    simp [advance, hmoved]
  have hpos : 0 < 2 + k := by omega
  have hdrop : (first :: line :: rest).drop (2 + k) = rest.drop k := by
    rw [show 2 + k = k + 1 + 1 by omega, List.drop_succ_cons, List.drop_succ_cons]
  rw [noReturnKept_cons hadvance, hdrop]
  rw [← Text.trim_bare] at hadd hdelete hupdate
  rw [List.map_cons, List.map_cons]
  rcases bare_cases line with ⟨hlast, hself⟩ | hreturn
  · refine ⟨kept, hpos, update_copied_of_chunks ?_ hne hcopied, ?_⟩
    · intro hunk n
      rw [hself, parse_one_hunk_moved hadd hdelete hupdate hmoved, List.length_map]
    · exact (and_iff_right fun _ => hlast).trans hkept
  · -- the new path of the bare line is another one
    rw [hreturn, Text.strip_prefix_append_return (by decide)] at hmoved
    obtain ⟨moved', hbare, rfl⟩ := Option.map_eq_some_iff.mp hmoved
    refine ⟨False, hpos, Copied.of_false ?_, ?_⟩
    · intro n hagain
      obtain ⟨chunks', -, -, heq⟩ :=
        (parse_one_hunk_moved hadd hdelete hupdate hbare).mp hagain
      injection heq with _ hmoved' _
      exact of_text_append_return moved' (Option.some.inj hmoved')
    · have hlast : line.getLast? = some '\r' := by
        rw [hreturn, List.getLast?_concat]
      simp [hlast]

/-- Reading the lines of an update again. -/
theorem update_copied (hok : parse_one_hunk (first :: rest) line_number = .ok (hunk, n)) :
    ∃ kept, 0 < n ∧
      Copied kept (parse_one_hunk ((first :: rest).map bare) line_number) hunk n ∧
      (NoReturnKept .updated rest ↔ kept ∧ NoReturnKept .header ((first :: rest).drop n)) := by
  cases hmove : rest.head?.bind fun line => Text.strip_prefix line MOVE_TO_MARKER with
  | none => exact unmoved_copied hadd hdelete hupdate hmove hok
  | some moved =>
    cases rest with
    | nil => cases hmove
    | cons line rest => exact moved_copied hadd hdelete hupdate hmove hok

end update

/-- Reading the lines of a hunk again. -/
theorem parse_one_hunk_copied {first : Text} {rest : List Text} {hunk : Hunk} {n : Nat}
    (hok : parse_one_hunk (first :: rest) line_number = .ok (hunk, n)) :
    ∃ kept, 0 < n ∧
      Copied kept (parse_one_hunk ((first :: rest).map bare) line_number) hunk n ∧
      (NoReturnKept .header (first :: rest) ↔
        kept ∧ NoReturnKept .header ((first :: rest).drop n)) := by
  have htrim : Text.trim (((first :: rest).map bare).headD []) = Text.trim first :=
    Text.trim_bare first
  have hadvance : advance .header first = (at_header first, false) := rfl
  cases hadd : Text.strip_prefix (Text.trim first) ADD_FILE_MARKER with
  | some path =>
    unfold parse_one_hunk at hok ⊢
    rw [htrim]
    simp only [List.headD_cons, List.tail_cons, List.map_cons, hadd] at hok ⊢
    cases hok
    have hplace : at_header first = .added := by simp [at_header, hadd]
    obtain ⟨kept, hkept, hsame, -, hlen⟩ := added_lines_bare rest
    refine ⟨kept, Nat.succ_pos _, ⟨?_, ?_⟩, ?_⟩
    · intro h
      rw [hsame h]
    · intro n hagain
      injection hagain with hagain
      injection hagain with hhunk
      injection hhunk with hpath hcontents
      exact hlen (congrArg List.length hcontents)
    · rw [noReturnKept_cons hadvance, hplace, List.drop_succ_cons]
      simpa using hkept
  | none =>
    cases hdelete : Text.strip_prefix (Text.trim first) DELETE_FILE_MARKER with
    | some path =>
      unfold parse_one_hunk at hok ⊢
      rw [htrim]
      simp only [List.headD_cons, hadd, hdelete] at hok ⊢
      cases hok
      have hplace : at_header first = .header := by simp [at_header, hadd, hdelete]
      refine ⟨True, Nat.one_pos, Copied.of_true rfl, ?_⟩
      rw [noReturnKept_cons hadvance, hplace]
      simp
    | none =>
      cases hupdate : Text.strip_prefix (Text.trim first) UPDATE_FILE_MARKER with
      | none =>
        unfold parse_one_hunk at hok
        simp [hadd, hdelete, hupdate] at hok
      | some path =>
        have hplace : at_header first = .updated := by
          simp [at_header, hadd, hdelete, hupdate]
        rw [noReturnKept_cons hadvance, hplace]
        simpa using update_copied hadd hdelete hupdate hok

end hunk

/-! ## All hunks -/

theorem parse_hunks_cons {fuel line_number : Nat} {first : Text} {rest : List Text}
    {hunks : List Hunk} :
    parse_hunks (fuel + 1) (first :: rest) line_number = .ok hunks ↔
      ∃ hunk n more, parse_one_hunk (first :: rest) line_number = .ok (hunk, n) ∧
        parse_hunks fuel ((first :: rest).drop n) (line_number + n) = .ok more ∧
        hunks = hunk :: more := by
  rw [parse_hunks]
  cases parse_one_hunk (first :: rest) line_number with
  | error e =>
    refine ⟨nofun, ?_⟩
    rintro ⟨hunk, n, more, h, -⟩
    cases h
  | ok r =>
    obtain ⟨hunk, n⟩ := r
    change (parse_hunks fuel ((first :: rest).drop n) (line_number + n) >>= _) = _ ↔ _
    cases hmore : parse_hunks fuel ((first :: rest).drop n) (line_number + n) with
    | error e =>
      refine ⟨nofun, ?_⟩
      rintro ⟨hunk', n', more, h, h', -⟩
      cases h
      rw [hmore] at h'
      cases h'
    | ok more =>
      constructor
      · intro h
        cases h
        exact ⟨hunk, n, more, rfl, hmore, rfl⟩
      · rintro ⟨hunk', n', more', h, h', rfl⟩
        cases h
        rw [hmore] at h'
        cases h'
        rfl

/-- Hunks that were read are read from the bare lines just when no end that is kept has a
carriage return. -/
theorem parse_hunks_bare_iff {fuel line_number : Nat} {lines : List Text} {hunks : List Hunk}
    (hfuel : lines.length ≤ fuel) (hok : parse_hunks fuel lines line_number = .ok hunks) :
    parse_hunks fuel (lines.map bare) line_number = .ok hunks ↔ NoReturnKept .header lines := by
  induction fuel generalizing lines line_number hunks with
  | zero =>
    obtain rfl := List.length_eq_zero_iff.mp (Nat.le_zero.mp hfuel)
    exact iff_of_true hok trivial
  | succ fuel ih =>
    cases lines with
    | nil => exact iff_of_true hok trivial
    | cons first rest =>
      have hlen : rest.length ≤ fuel := by simpa using hfuel
      obtain ⟨hunk, n, more, hhunk, hmore, rfl⟩ := parse_hunks_cons.mp hok
      obtain ⟨kept, hpos, hcopied, hkept⟩ := parse_one_hunk_copied hhunk
      have hagain := ih (by simp; omega) hmore
      rw [List.map_drop] at hagain
      rw [hkept, ← hagain, List.map_cons, parse_hunks_cons]
      constructor
      · rintro ⟨hunk', n', more', hhunk', hmore', heq⟩
        cases heq
        have h := hcopied.only n' hhunk'
        have hn := hcopied.same h
        rw [List.map_cons, hhunk'] at hn
        cases hn
        exact ⟨h, hmore'⟩
      · rintro ⟨h, hmore'⟩
        exact ⟨hunk, n, more, hcopied.same h, hmore', rfl⟩

end Ecode.apply_patch
