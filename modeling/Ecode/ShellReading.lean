-- What a shell reads in a script: its words, every character with the quotes that it stands in, and
-- its operators. Read back without quotes and operators, the words are those of the plain reader.
import Ecode.ShellWords

namespace Ecode.shell

/-! ## Tokens -/

/-- What stands around a character. A backslash quotes as single quotes do. -/
inductive Quoting where
  | bare
  | double
  | quoted
  deriving DecidableEq, Repr

/-- A word before any expansion. -/
abbrev RawWord := List (Char × Quoting)

/-- The characters of a word, when nothing in it expands. -/
def text (w : RawWord) : Text := w.map Prod.fst

def bare (t : Text) : RawWord := t.map fun c => (c, .bare)

def all_quoted (t : Text) : RawWord := t.map fun c => (c, .quoted)

@[simp] theorem text_append (v w : RawWord) : text (v ++ w) = text v ++ text w :=
  List.map_append

@[simp] theorem text_bare (t : Text) : text (bare t) = t := by
  simp [text, bare, Function.comp_def]

@[simp] theorem text_all_quoted (t : Text) : text (all_quoted t) = t := by
  simp [text, all_quoted, Function.comp_def]

/-- A character of an operator is `joined` when the character in front of it is one too. -/
inductive Token where
  | word (w : RawWord)
  | op (c : Char) (joined : Bool)
  deriving DecidableEq, Repr

def Token.is_word : Token → Bool
  | .word _ => true
  | .op _ _ => false

def Token.is_newline : Token → Bool
  | .word _ => false
  | .op c _ => c = '\n'

/-! ## The reader -/

structure State where
  mode : Mode
  word : RawWord
  joined : Bool
  deriving DecidableEq, Repr

def start : State := ⟨.blank, [], false⟩

/-- Inside of a word, or of the quotes of one. -/
def State.goes_on (m : Mode) (w : RawWord) : State := ⟨m, w, false⟩

def is_operator_char (c : Char) : Bool :=
  is_operator c || c = '<' || c = '>' || c = '(' || c = ')'

def operator_state (c : Char) : State := ⟨.blank, [], c ≠ '\n'⟩

/-- One character: the tokens that it ends and the next state. -/
def read_char (s : State) (c : Char) : List Token × State :=
  match s.mode with
  | .blank =>
    if is_operator_char c then ([.op c s.joined], operator_state c)
    else if is_blank c then ([], start)
    else if c = '#' then ([], .goes_on .comment [])
    else if c = '"' then ([], .goes_on .double [])
    else if c = '\'' then ([], .goes_on .single [])
    else if c = '\\' then ([], ⟨.escape_blank, [], s.joined⟩)
    else ([], .goes_on .word [(c, .bare)])
  | .word =>
    if is_operator_char c then ([.word s.word, .op c false], operator_state c)
    else if is_blank c then ([.word s.word], start)
    else if c = '"' then ([], .goes_on .double s.word)
    else if c = '\'' then ([], .goes_on .single s.word)
    else if c = '\\' then ([], .goes_on .escape_word s.word)
    else ([], .goes_on .word (s.word ++ [(c, .bare)]))
  | .single =>
    if c = '\'' then ([], .goes_on .word s.word)
    else ([], .goes_on .single (s.word ++ [(c, .quoted)]))
  | .double =>
    if c = '"' then ([], .goes_on .word s.word)
    else if c = '\\' then ([], .goes_on .escape_double s.word)
    else ([], .goes_on .double (s.word ++ [(c, .double)]))
  -- An escaped newline joins two lines, so it stands for nothing.
  | .escape_blank =>
    if c = '\n' then ([], ⟨.blank, [], s.joined⟩) else ([], .goes_on .word [(c, .quoted)])
  | .escape_word =>
    if c = '\n' then ([], .goes_on .word s.word)
    else ([], .goes_on .word (s.word ++ [(c, .quoted)]))
  | .escape_double =>
    if c = '$' ∨ c = '`' ∨ c = '"' ∨ c = '\\' then
      ([], .goes_on .double (s.word ++ [(c, .quoted)]))
    else if c = '\n' then ([], .goes_on .double s.word)
    else ([], .goes_on .double (s.word ++ [('\\', .quoted), (c, .double)]))
  | .comment =>
    if c = '\n' then ([.op c false], operator_state c) else ([], .goes_on .comment [])

def reads (s : State) : Text → List Token × State
  | [] => ([], s)
  | c :: t =>
    let (out, s') := read_char s c
    let (tokens, s'') := reads s' t
    (out ++ tokens, s'')

/-- What the end of a text gives: none inside of quotes. -/
def finish (s : State) : Option (List Token) :=
  match s.mode with
  | .blank | .comment => some []
  | .word => some [.word s.word]
  | _ => none

/-- The tokens of a script. None when a quote or an escape does not end. -/
def read_script (script : Text) : Option (List Token) :=
  (finish (reads start script).2).map fun rest => (reads start script).1 ++ rest

theorem reads_cons (s : State) (c : Char) (t : Text) :
    reads s (c :: t) =
      ((read_char s c).1 ++ (reads (read_char s c).2 t).1, (reads (read_char s c).2 t).2) := rfl

theorem reads_append (s : State) (t t' : Text) :
    reads s (t ++ t') =
      ((reads s t).1 ++ (reads (reads s t).2 t').1, (reads (reads s t).2 t').2) := by
  induction t generalizing s with
  | nil => rfl
  | cons c t ih => rw [List.cons_append, reads_cons, reads_cons, ih, List.append_assoc]

example : read_script "cd a && ls 'b c'".toList =
    some [.word (bare "cd".toList), .word (bare "a".toList), .op '&' false, .op '&' true,
      .word (bare "ls".toList), .word (all_quoted "b c".toList)] := by
  decide

/-! ## The words without the operators -/

/-- Words and line breaks. -/
def Token.unjoined (token : Token) : Bool := token.is_word || token.is_newline

def token_items : List Token → List Item
  | [] => []
  | .word w :: tokens => .word (text w) :: token_items tokens
  | .op _ _ :: tokens => token_items tokens

theorem token_items_append (ts us : List Token) :
    token_items (ts ++ us) = token_items ts ++ token_items us := by
  induction ts with
  | nil => rfl
  | cons t ts ih =>
    cases t with
    | word w => exact congrArg (Item.word (text w) :: ·) ih
    | op c joined => exact ih

/-- One character that ends no operator but a line break is the same to both readers. -/
theorem read_char_plain (s : State) (c : Char)
    (h : ∀ token ∈ (read_char s c).1, token.unjoined = true) :
    next (fun _ => false) s.mode (text s.word) c =
      (token_items (read_char s c).1, (read_char s c).2.mode, text (read_char s c).2.word) := by
  obtain ⟨mode, word, joined⟩ := s
  cases mode with
  | blank =>
    by_cases hop : is_operator_char c = true
    · have hnl : c = '\n' := by simpa [read_char, hop, Token.unjoined, Token.is_word,
        Token.is_newline] using h
      subst hnl
      rfl
    · clear h
      simp only [read_char, next, hop, Bool.false_eq_true, ↓reduceIte]
      split_ifs <;> simp [start, State.goes_on, token_items, text]
  | word =>
    by_cases hop : is_operator_char c = true
    · have hnl : c = '\n' := by simpa [read_char, hop, Token.unjoined, Token.is_word,
        Token.is_newline] using h
      subst hnl
      rfl
    · clear h
      simp only [read_char, next, hop, Bool.false_eq_true, ↓reduceIte]
      split_ifs <;> simp [start, State.goes_on, token_items, text]
  | comment =>
    by_cases hnl : c = '\n'
    · subst hnl
      rfl
    · simp [read_char, next, hnl, State.goes_on, token_items, text]
  | _ =>
    clear h
    simp only [read_char, next]
    split_ifs <;> simp [State.goes_on, token_items, text]

/-- A text without operators is read as the plain reader reads it. -/
theorem reads_plain {s : State} {t : Text}
    (h : ∀ token ∈ (reads s t).1, token.unjoined = true) (t' : Text) :
    lex (fun _ => false) s.mode (text s.word) (t ++ t') =
      (token_items (reads s t).1 ++
          (lex (fun _ => false) (reads s t).2.mode (text (reads s t).2.word) t').1,
        (lex (fun _ => false) (reads s t).2.mode (text (reads s t).2.word) t').2) := by
  induction t generalizing s with
  | nil => rfl
  | cons c t ih =>
    rw [reads_cons] at h ⊢
    have hchar := read_char_plain s c fun token hmem => h token (List.mem_append_left _ hmem)
    have hrest := ih fun token hmem => h token (List.mem_append_right _ hmem)
    rw [List.cons_append, lex_cons, hchar]
    dsimp only
    rw [hrest, token_items_append, List.append_assoc]

/-- The texts of the words. -/
def word_texts (tokens : List Token) : List Text := words_of (token_items tokens)

theorem words_eq (t : Text) : words t =
    if (lex (fun _ => false) .blank [] t).2 then
      some (words_of (lex (fun _ => false) .blank [] t).1)
    else none := by
  unfold words
  rcases lex (fun _ => false) .blank [] t with ⟨items, _ | _⟩ <;> rfl

/-- The words of a text whose front ends between words. -/
theorem words_append {t t' : Text} (h : ∀ token ∈ (reads start t).1, token.unjoined = true)
    (hend : (reads start t).2.mode = .blank ∧ (reads start t).2.word = []) :
    words (t ++ t') = (words t').map (word_texts (reads start t).1 ++ ·) := by
  have hplain := reads_plain h t'
  rw [hend.1, hend.2] at hplain
  change lex (fun _ => false) .blank [] (t ++ t') = _ at hplain
  rw [words_eq, words_eq, hplain]
  dsimp only
  change (if (lex (fun _ => false) .blank [] t').2 then _ else _) = _
  split_ifs
  · exact congrArg some (words_of_append _ _)
  · rfl

/-- The words of a script without operators are those of the plain reader. -/
theorem words_of_read {t : Text} {tokens : List Token} (h : read_script t = some tokens)
    (hplain : ∀ token ∈ tokens, token.unjoined = true) : words t = some (word_texts tokens) := by
  unfold read_script at h
  obtain ⟨rest, hrest, rfl⟩ := Option.map_eq_some_iff.mp h
  have hreads := reads_plain (fun token hmem => hplain token (List.mem_append_left _ hmem)) []
  rw [List.append_nil] at hreads
  change lex (fun _ => false) .blank [] t = _ at hreads
  rw [words_eq, hreads]
  dsimp only
  unfold finish at hrest
  unfold word_texts
  rw [token_items_append]
  split at hrest
  · next hmode =>
    obtain rfl := Option.some.inj hrest
    rw [hmode]
    rfl
  · next hmode =>
    obtain rfl := Option.some.inj hrest
    rw [hmode]
    rfl
  · next hmode =>
    obtain rfl := Option.some.inj hrest
    rw [hmode]
    rfl
  · cases hrest

theorem word_texts_map (ws : List RawWord) : word_texts (ws.map .word) = ws.map text := by
  induction ws with
  | nil => rfl
  | cons w ws ih => exact congrArg (text w :: ·) ih

/-- The characters of the words are those of the text, but for a backslash. -/
theorem next_free {isOp : Char → Bool} {m : Mode} {cur : Text} {c x : Char} (hx : x ≠ '\\')
    (hcur : x ∉ cur) (hc : x ≠ c) :
    (∀ w, Item.word w ∈ (next isOp m cur c).1 → x ∉ w) ∧ x ∉ (next isOp m cur c).2.2 := by
  cases m <;> simp only [next] <;> split_ifs <;> simp_all

theorem lex_free {isOp : Char → Bool} {x : Char} (hx : x ≠ '\\') {m : Mode} {cur t : Text}
    (hcur : x ∉ cur) (ht : x ∉ t) : ∀ w, Item.word w ∈ (lex isOp m cur t).1 → x ∉ w := by
  induction t generalizing m cur with
  | nil => cases m <;> simp_all [lex]
  | cons c t ih =>
    rw [List.mem_cons, not_or] at ht
    obtain ⟨hitems, hnext⟩ := @next_free isOp m cur c x hx hcur ht.1
    intro w hw
    rw [lex_cons] at hw
    rcases List.mem_append.mp hw with hw | hw
    · exact hitems w hw
    · exact ih hnext ht.2 w hw

theorem mem_words_of {w : Text} {items : List Item} : w ∈ words_of items ↔ .word w ∈ items := by
  induction items with
  | nil => simp [words_of]
  | cons item items ih => cases item <;> simp [words_of, ih]

theorem words_free {x : Char} (hx : x ≠ '\\') {t : Text} {ws : List Text} (h : words t = some ws)
    (ht : x ∉ t) : ∀ w ∈ ws, x ∉ w := by
  rw [words_eq] at h
  split_ifs at h
  obtain rfl := Option.some.inj h
  exact fun w hw => lex_free hx List.not_mem_nil ht w (mem_words_of.mp hw)

/-! ## What a shell makes of tokens -/

/-- A shell, as far as its words and lists go. -/
structure Shell where
  /-- The characters that are to be quoted when they stand for themselves. -/
  metachar : Char → Bool
  /-- Whether a word is taken as it stands: nothing in it expands, and it is no assignment and no
  reserved word. The first word of a command can be one of these. -/
  literal : Bool → RawWord → Bool
  /-- What is left of a list whose first pipeline is not run. -/
  skip_pipeline : List Token → List Token
  literal_plain : ∀ w, (text w).any metachar = false → literal false w = true

inductive Part where
  | op (c : Char) (joined : Bool)
  | argument (t : Text)
  | special (w : RawWord)
  deriving DecidableEq, Repr

section shell

variable (shell : Shell)

def Shell.part (first : Bool) (w : RawWord) : Part :=
  if shell.literal first w then .argument (text w) else .special w

/-- The commands of a list, with their operators, expansions and arguments. A word behind a
redirection is not the first of a command. -/
def Shell.parts (first : Bool) : List Token → List Part
  | [] => []
  | .op c joined :: tokens => .op c joined :: Shell.parts (c ≠ '<' && c ≠ '>') tokens
  | .word w :: tokens => shell.part first w :: Shell.parts false tokens

/-- Line breaks in front of a list and at its end. -/
def trim_newlines (tokens : List Token) : List Token :=
  (tokens.dropWhile Token.is_newline).rdropWhile Token.is_newline

/-- What the shell runs of a list of tokens. -/
def Shell.runs (tokens : List Token) : List Part := shell.parts true (trim_newlines tokens)

/-- A word that is read back for a text: unchanged where nothing in it is special, else as one
literal word. -/
def Shell.Requoted (t : Text) (w : RawWord) : Prop :=
  text w = t ∧ if t.any shell.metachar then ∀ first, shell.literal first w = true else w = bare t

/-- The first word of a command stays what it is when its text is quoted again: it is no word in
quotes that is a reserved one without them. -/
def Shell.Kept (w : RawWord) : Prop :=
  if (text w).any shell.metachar then shell.literal true w = true
  else w = bare (text w) ∨ shell.literal true w = true ∧ shell.literal true (bare (text w)) = true

variable {shell}

/-- What a word is taken for gives its text. -/
theorem text_of_part {first : Bool} {v w : RawWord} (h : shell.part first v = shell.part first w) :
    text v = text w := by
  unfold Shell.part at h
  split_ifs at h
  · exact Part.argument.inj h
  · rw [Part.special.inj h]

theorem part_requoted_iff {t : Text} {r : RawWord} (h : shell.Requoted t r) (w : RawWord) :
    shell.part false w = shell.part false r ↔ shell.literal false w = true ∧ text w = t := by
  obtain ⟨htext, hquoted⟩ := h
  have hliteral : shell.literal false r = true := by
    split_ifs at hquoted with hmeta
    · exact hquoted false
    · apply shell.literal_plain
      rw [htext]
      simpa using hmeta
  unfold Shell.part
  rw [if_pos hliteral, htext]
  split_ifs with hw
  · simp [hw]
  · simp [hw]

theorem first_part_requoted_iff {t : Text} {r : RawWord} (h : shell.Requoted t r) (w : RawWord) :
    shell.part true w = shell.part true r ↔ shell.Kept w ∧ text w = t := by
  obtain ⟨htext, hquoted⟩ := h
  by_cases hw : text w = t
  · subst hw
    unfold Shell.part Shell.Kept
    by_cases hmeta : (text w).any shell.metachar = true
    · rw [if_pos hmeta] at hquoted ⊢
      rw [if_pos (hquoted true), htext]
      split_ifs with hliteral <;> simp [hliteral]
    · rw [if_neg hmeta] at hquoted ⊢
      have hsame : w = bare (text w) → shell.literal true w = shell.literal true (bare (text w)) :=
        congrArg (shell.literal true)
      subst hquoted
      split_ifs with hliteral hbare hbare
      · simp [hliteral, hbare]
      · refine iff_of_false (by simp) ?_
        rintro ⟨hw | ⟨-, hboth⟩, -⟩
        · exact hbare (hsame hw ▸ hliteral)
        · exact hbare hboth
      · refine iff_of_false (by simp) ?_
        rintro ⟨hw | ⟨hboth, -⟩, -⟩
        · exact hliteral (hsame hw ▸ hbare)
        · exact hliteral hboth
      · simp [hliteral]
  · refine iff_of_false (fun hpart => hw ?_) (fun hkept => hw hkept.2)
    exact (text_of_part hpart).trans htext

@[simp] theorem parts_word (first : Bool) (w : RawWord) (tokens : List Token) :
    shell.parts first (.word w :: tokens) = shell.part first w :: shell.parts false tokens := rfl

/-- A list that has the parts of words is a list of words. -/
theorem words_of_parts {first : Bool} {tokens : List Token} {rs : List RawWord}
    (h : shell.parts first tokens = shell.parts first (rs.map .word)) :
    ∃ ws : List RawWord, tokens = ws.map .word := by
  induction rs generalizing first tokens with
  | nil =>
    cases tokens with
    | nil => exact ⟨[], rfl⟩
    | cons token tokens => cases token <;> cases h
  | cons r rs ih =>
    cases tokens with
    | nil => cases h
    | cons token tokens =>
      cases token with
      | op c joined =>
        rw [List.map_cons, parts_word, Shell.parts, Shell.part] at h
        split_ifs at h <;> cases h
      | word w =>
        obtain ⟨ws, rfl⟩ := ih (List.cons.inj h).2
        exact ⟨w :: ws, rfl⟩

/-- Words behind the first one. -/
theorem parts_requoted_iff {ts : List Text} {rs : List RawWord}
    (h : List.Forall₂ shell.Requoted ts rs) (ws : List RawWord) :
    shell.parts false (ws.map .word) = shell.parts false (rs.map .word) ↔
      (∀ w ∈ ws, shell.literal false w = true) ∧ ws.map text = ts := by
  induction h generalizing ws with
  | nil => cases ws <;> simp [Shell.parts]
  | cons hquoted _ ih =>
    cases ws with
    | nil => simp [Shell.parts]
    | cons w ws =>
      simp only [List.map_cons, parts_word, List.cons.injEq, part_requoted_iff hquoted, ih,
        List.forall_mem_cons]
      tauto

/-- One command without operators, which its texts make again when they are quoted. -/
structure Shell.Repeatable (shell : Shell) (tokens : List Token) (w : RawWord)
    (ws : List RawWord) : Prop where
  words : trim_newlines tokens = (w :: ws).map .word
  first : shell.Kept w
  literal : ∀ v ∈ ws, shell.literal false v = true

theorem trim_words (ws : List RawWord) : trim_newlines (ws.map .word) = ws.map .word := by
  have hnone : ∀ token ∈ ws.map Token.word, ¬ token.is_newline = true := by simp [Token.is_newline]
  unfold trim_newlines
  have hfront : (ws.map Token.word).dropWhile Token.is_newline = ws.map .word := by
    apply List.dropWhile_eq_self_iff.mpr
    exact fun hlen => hnone _ (List.getElem_mem hlen)
  rw [hfront]
  apply List.rdropWhile_eq_self_iff.mpr
  exact fun hne => hnone _ (List.getLast_mem hne)

theorem trim_newlines_split (tokens : List Token) :
    ∃ front back, tokens = front ++ (trim_newlines tokens ++ back) ∧
      (∀ token ∈ front, token.is_newline = true) ∧ ∀ token ∈ back, token.is_newline = true := by
  refine ⟨tokens.takeWhile Token.is_newline,
    (tokens.dropWhile Token.is_newline).rtakeWhile Token.is_newline, ?_, ?_, ?_⟩
  · unfold trim_newlines
    rw [List.rdropWhile_append_rtakeWhile, List.takeWhile_append_dropWhile]
  · exact fun token hmem => List.mem_takeWhile_imp hmem
  · exact fun token hmem => List.mem_rtakeWhile_imp hmem

theorem word_texts_newlines {tokens : List Token} (h : ∀ token ∈ tokens, token.is_newline = true) :
    token_items tokens = [] := by
  induction tokens with
  | nil => rfl
  | cons token tokens ih =>
    rw [List.forall_mem_cons] at h
    cases token with
    | word w => cases h.1
    | op c joined => exact ih h.2

/-- The plain words of a script that is one command. -/
theorem words_of_trimmed {t : Text} {tokens : List Token} {ws : List RawWord}
    (h : read_script t = some tokens) (htrim : trim_newlines tokens = ws.map .word) :
    words t = some (ws.map text) := by
  obtain ⟨front, back, hsplit, hfront, hback⟩ := trim_newlines_split tokens
  rw [htrim] at hsplit
  have hplain : ∀ token ∈ tokens, token.unjoined = true := by
    intro token hmem
    rw [hsplit] at hmem
    simp only [List.mem_append, List.mem_map] at hmem
    unfold Token.unjoined
    rcases hmem with hmem | ⟨w, -, rfl⟩ | hmem
    · rw [hfront token hmem, Bool.or_true]
    · rfl
    · rw [hback token hmem, Bool.or_true]
  have htexts : word_texts tokens = ws.map text := by
    rw [← word_texts_map, hsplit]
    unfold word_texts
    rw [token_items_append, token_items_append, word_texts_newlines hfront,
      word_texts_newlines hback, List.nil_append, List.append_nil]
  rw [words_of_read h hplain, htexts]

/-- A list runs as a command of quoted words does exactly when it is such a command. -/
theorem runs_requoted_iff {t : Text} {ts : List Text} {rs : List RawWord}
    (h : List.Forall₂ shell.Requoted (t :: ts) rs) (tokens : List Token) :
    shell.runs tokens = shell.runs (rs.map .word) ↔
      ∃ w ws, shell.Repeatable tokens w ws ∧ text w :: ws.map text = t :: ts := by
  unfold Shell.runs
  rw [trim_words]
  constructor
  · intro hparts
    obtain ⟨vs, hvs⟩ := words_of_parts hparts
    obtain ⟨r, rs', hr, hrs, rfl⟩ := List.forall₂_cons_left_iff.mp h
    rw [hvs] at hparts
    cases vs with
    | nil => cases hparts
    | cons w ws =>
      simp only [List.map_cons, parts_word, List.cons.injEq] at hparts
      obtain ⟨hkept, htext⟩ := (first_part_requoted_iff hr w).mp hparts.1
      obtain ⟨hliteral, htexts⟩ := (parts_requoted_iff hrs ws).mp hparts.2
      exact ⟨w, ws, ⟨hvs, hkept, hliteral⟩, by rw [htext, htexts]⟩
  · rintro ⟨w, ws, hrepeat, htexts⟩
    obtain ⟨r, rs', hr, hrs, rfl⟩ := List.forall₂_cons_left_iff.mp h
    obtain ⟨htext, htexts⟩ := List.cons.inj htexts
    rw [hrepeat.words, List.map_cons, List.map_cons, parts_word, parts_word,
      (first_part_requoted_iff hr w).mpr ⟨hrepeat.first, htext⟩,
      (parts_requoted_iff hrs ws).mpr ⟨hrepeat.literal, htexts⟩]

end shell

/-! ## Words that are quoted again -/

section quote

variable (metachar : Char → Bool)

/-- In single quotes, where a single quote itself stands outside of them behind a backslash. -/
def quote_body (t : Text) : Text := t.flatMap fun c => if c = '\'' then "'\\''".toList else [c]

def quote (t : Text) : Text :=
  if t ≠ [] ∧ t.any metachar = false then t else '\'' :: (quote_body t ++ ['\''])

def quoted_word (t : Text) : RawWord :=
  if t ≠ [] ∧ t.any metachar = false then bare t else all_quoted t

/-- The characters with a meaning to the reader. -/
def is_special (c : Char) : Bool :=
  is_operator_char c || is_blank c || c = '#' || c = '"' || c = '\'' || c = '\\'

theorem reads_quote_body (t : Text) (w : RawWord) :
    reads (.goes_on .single w) (quote_body t) = ([], .goes_on .single (w ++ all_quoted t)) := by
  induction t generalizing w with
  | nil => simp [quote_body, reads, all_quoted]
  | cons c t ih =>
    have hcons : quote_body (c :: t) = quote_body [c] ++ quote_body t := by simp [quote_body]
    have hchar : reads (.goes_on .single w) (quote_body [c]) =
        ([], .goes_on .single (w ++ [(c, .quoted)])) := by
      by_cases hc : c = '\''
      · subst hc
        simp [quote_body, reads, read_char, State.goes_on, is_operator_char, is_operator, is_blank]
      · simp [quote_body, reads, read_char, State.goes_on, hc]
    rw [hcons, reads_append, hchar, ih]
    simp [all_quoted]

theorem reads_bare {t : Text} (h : t.any is_special = false) (w : RawWord) :
    reads (.goes_on .word w) t = ([], .goes_on .word (w ++ bare t)) := by
  induction t generalizing w with
  | nil => simp [reads, bare]
  | cons c t ih =>
    rw [List.any_cons, Bool.or_eq_false_iff] at h
    have hchar : read_char (.goes_on .word w) c = ([], .goes_on .word (w ++ [(c, .bare)])) := by
      have hc := h.1
      simp only [is_special, Bool.or_eq_false_iff, decide_eq_false_iff_not] at hc
      simp [read_char, State.goes_on, hc]
    rw [reads_cons, hchar, ih h.2]
    simp [bare]

variable {metachar}

theorem reads_quote (h : ∀ c, is_special c = true → metachar c = true) (t : Text) :
    reads start (quote metachar t) = ([], .goes_on .word (quoted_word metachar t)) := by
  unfold quote quoted_word
  split_ifs with hplain
  · obtain ⟨hne, hmeta⟩ := hplain
    have hspecial : t.any is_special = false := by
      rw [List.any_eq_false] at hmeta ⊢
      exact fun c hc hs => hmeta c hc (h c hs)
    cases t with
    | nil => exact absurd rfl hne
    | cons c t =>
      rw [List.any_cons, Bool.or_eq_false_iff] at hspecial
      have hchar : read_char start c = ([], .goes_on .word [(c, .bare)]) := by
        have hc := hspecial.1
        simp only [is_special, Bool.or_eq_false_iff, decide_eq_false_iff_not] at hc
        simp [read_char, start, State.goes_on, hc]
      rw [reads_cons, hchar, reads_bare hspecial.2]
      rfl
  · have hopen : read_char start '\'' = ([], .goes_on .single []) := rfl
    have hclose : reads (.goes_on .single (all_quoted t)) ['\''] =
        ([], .goes_on .word (all_quoted t)) := rfl
    rw [reads_cons, hopen, reads_append, reads_quote_body]
    dsimp only
    rw [List.nil_append, List.nil_append, List.nil_append, hclose]

/-- Quoted words, with a blank between two of them. -/
def quote_all (metachar : Char → Bool) (ts : List Text) : Text :=
  Text.join [' '] (ts.map (quote metachar))

/-- Quoted words are read back as they are. -/
theorem read_quote_all (h : ∀ c, is_special c = true → metachar c = true) (ts : List Text) :
    read_script (quote_all metachar ts) =
      some (ts.map fun t => .word (quoted_word metachar t)) := by
  induction ts with
  | nil => rfl
  | cons t ts ih =>
    cases ts with
    | nil =>
      change read_script (quote metachar t) = _
      unfold read_script
      rw [reads_quote h]
      rfl
    | cons t' ts =>
      have hjoin : quote_all metachar (t :: t' :: ts) =
          quote metachar t ++ ' ' :: quote_all metachar (t' :: ts) := by
        simp [quote_all, Text.join]
      have hblank : ∀ w, read_char (.goes_on .word w) ' ' = ([.word w], start) := fun w => rfl
      unfold read_script at ih ⊢
      rw [hjoin, reads_append, reads_quote h]
      dsimp only
      rw [reads_cons, hblank]
      obtain ⟨rest, hrest, htokens⟩ := Option.map_eq_some_iff.mp ih
      simp only [hrest, Option.map_some, List.nil_append, List.cons_append, htokens,
        List.map_cons]

end quote

end Ecode.shell
