-- The words of a shell script, read one character at a time: blanks, quotes,
-- escapes and comments as POSIX has them. The same reader, with and without the
-- operators, gives the simple commands and the plain word splitting.
import Ecode.Text

namespace Ecode.shell

/-! ## The reader -/

/-- Where the reader stands. The three escapes are the ones outside of a word, in a word and in
double quotes. -/
inductive Mode where
  | blank
  | word
  | single
  | double
  | escape_blank
  | escape_word
  | escape_double
  | comment
  deriving DecidableEq, Repr

inductive Item where
  | word (w : Text)
  | op (c : Char)
  deriving DecidableEq, Repr

def is_blank (c : Char) : Bool := c = ' ' || c = '\t' || c = '\n'

/-- One character: the items that it ends, the next mode and the word so far. -/
def next (isOp : Char → Bool) (m : Mode) (cur : Text) (c : Char) : List Item × Mode × Text :=
  match m with
  | .blank =>
    if isOp c then ([.op c], .blank, [])
    else if is_blank c then ([], .blank, [])
    else if c = '#' then ([], .comment, [])
    else if c = '"' then ([], .double, [])
    else if c = '\'' then ([], .single, [])
    else if c = '\\' then ([], .escape_blank, [])
    else ([], .word, [c])
  | .word =>
    if isOp c then ([.word cur, .op c], .blank, [])
    else if is_blank c then ([.word cur], .blank, [])
    else if c = '"' then ([], .double, cur)
    else if c = '\'' then ([], .single, cur)
    else if c = '\\' then ([], .escape_word, cur)
    else ([], .word, cur ++ [c])
  | .single => if c = '\'' then ([], .word, cur) else ([], .single, cur ++ [c])
  | .double =>
    if c = '"' then ([], .word, cur)
    else if c = '\\' then ([], .escape_double, cur)
    else ([], .double, cur ++ [c])
  -- An escaped newline joins two lines, so it stands for nothing.
  | .escape_blank => if c = '\n' then ([], .blank, []) else ([], .word, [c])
  | .escape_word => if c = '\n' then ([], .word, cur) else ([], .word, cur ++ [c])
  | .escape_double =>
    if c = '$' ∨ c = '`' ∨ c = '"' ∨ c = '\\' then ([], .double, cur ++ [c])
    else if c = '\n' then ([], .double, cur)
    else ([], .double, cur ++ ['\\', c])
  | .comment =>
    if c = '\n' then (if isOp c then [.op c] else [], .blank, []) else ([], .comment, [])

/-- The items of a text, and whether all its quotes and escapes end. -/
def lex (isOp : Char → Bool) (m : Mode) (cur : Text) : Text → List Item × Bool
  | [] =>
    match m with
    | .blank | .comment => ([], true)
    | .word => ([.word cur], true)
    | _ => ([], false)
  | c :: t =>
    let (out, m', cur') := next isOp m cur c
    let (items, closed) := lex isOp m' cur' t
    (out ++ items, closed)

def words_of : List Item → List Text
  | [] => []
  | .word w :: items => w :: words_of items
  | .op _ :: items => words_of items

/-- POSIX word splitting with quote removal, without operators. None when a quote or an escape
does not end. -/
def words (script : Text) : Option (List Text) :=
  match lex (fun _ => false) .blank [] script with
  | (items, true) => some (words_of items)
  | (_, false) => none

/-- The characters of `;`, `&`, `&&`, `|`, `||` and the newline. -/
def is_operator (c : Char) : Bool := c = ';' || c = '&' || c = '|' || c = '\n'

def is_newline : Item → Bool
  | .op c => c = '\n'
  | .word _ => false

/-- The groups of words between operators. The last group counts only when it is closed. -/
def groups (closed : Bool) (group : List Text) : List Item → List (List Text)
  | [] => if closed then [group] else []
  | .word w :: items => groups closed (group ++ [w]) items
  | .op _ :: items => group :: groups closed [] items

/-- The simple commands of a script: the words between operators, where there are some. A
script that starts with an operator other than a newline is a syntax error and runs nothing. -/
def simple_commands (script : Text) : List (List Text) :=
  let (items, closed) := lex is_operator .blank [] script
  match items.dropWhile is_newline with
  | .op _ :: _ => []
  | items => (groups closed [] items).filter (· ≠ [])

example : simple_commands "git status && rm -rf 'a b'; # x\nls".toList =
    [["git".toList, "status".toList], ["rm".toList, "-rf".toList, "a b".toList], ["ls".toList]] := by
  decide

/-! ## The reader with and without operators -/

/-- The modes inside of a word. -/
def in_word : Mode → Bool
  | .word | .single | .double | .escape_word | .escape_double => true
  | .blank | .escape_blank | .comment => false

/-- The reader of plain words. -/
abbrev plain (m : Mode) (cur t : Text) : List Item × Bool := lex (fun _ => false) m cur t

/-- The reader of words and operators. -/
abbrev script_items (m : Mode) (cur t : Text) : List Item × Bool := lex is_operator m cur t

theorem lex_cons (isOp : Char → Bool) (m : Mode) (cur : Text) (c : Char) (t : Text) :
    lex isOp m cur (c :: t) =
      ((next isOp m cur c).1 ++ (lex isOp (next isOp m cur c).2.1 (next isOp m cur c).2.2 t).1,
        (lex isOp (next isOp m cur c).2.1 (next isOp m cur c).2.2 t).2) := rfl

/-- An operator other than a newline is an ordinary character of a plain word. -/
theorem operator_plain {c : Char} (hop : is_operator c = true) (hnl : c ≠ '\n') :
    is_blank c = false ∧ c ≠ '#' ∧ c ≠ '"' ∧ c ≠ '\'' ∧ c ≠ '\\' := by
  simp only [is_operator, Bool.or_eq_true, decide_eq_true_eq] at hop
  rcases hop with ((rfl | rfl) | rfl) | rfl
  · decide
  · decide
  · decide
  · exact absurd rfl hnl

/-- One character with and without operators: the two readers make the same step, or they stand
at an operator outside of quotes. -/
theorem next_cases (m : Mode) (cur : Text) (c : Char) :
    (next is_operator m cur c = next (fun _ => false) m cur c ∧
      ((next is_operator m cur c).1 = [] ∨ (next is_operator m cur c).1 = [.word cur] ∧ m = .word)) ∨
    (c = '\n' ∧ (m = .blank ∨ m = .comment) ∧
      next is_operator m cur c = ([.op '\n'], .blank, []) ∧
      next (fun _ => false) m cur c = ([], .blank, [])) ∨
    (c = '\n' ∧ m = .word ∧ next is_operator m cur c = ([.word cur, .op '\n'], .blank, []) ∧
      next (fun _ => false) m cur c = ([.word cur], .blank, [])) ∨
    (is_operator c = true ∧ c ≠ '\n' ∧ m = .blank ∧
      next is_operator m cur c = ([.op c], .blank, []) ∧
      next (fun _ => false) m cur c = ([], .word, [c])) ∨
    (is_operator c = true ∧ c ≠ '\n' ∧ m = .word ∧
      next is_operator m cur c = ([.word cur, .op c], .blank, []) ∧
      next (fun _ => false) m cur c = ([], .word, cur ++ [c])) := by
  by_cases hnl : c = '\n'
  · subst hnl
    cases m <;> simp [next, is_operator, is_blank]
  · by_cases hop : is_operator c = true
    · obtain ⟨hb, h1, h2, h3, h4⟩ := operator_plain hop hnl
      cases m <;> simp [next, hop, hb, hnl, h1, h2, h3, h4]
      split_ifs <;> rfl
    · cases m <;> simp [next, hop, hnl] <;> split_ifs <;> simp

theorem words_of_append (xs ys : List Item) : words_of (xs ++ ys) = words_of xs ++ words_of ys := by
  induction xs with
  | nil => rfl
  | cons i xs ih => cases i <;> simp [words_of, ih]

/-- A plain word in progress stays in progress or ends as it is. -/
theorem next_in_word {m : Mode} (hm : in_word m) (cur : Text) (c : Char) :
    (next (fun _ => false) m cur c = ([.word cur], .blank, [])) ∨
      ∃ m' u, in_word m' ∧ next (fun _ => false) m cur c = ([], m', cur ++ u) := by
  cases m <;> simp only [in_word, Bool.false_eq_true] at hm <;>
    simp only [next, Bool.false_eq_true, ↓reduceIte]
  · split_ifs
    · exact .inl rfl
    · exact .inr ⟨.double, [], rfl, by simp⟩
    · exact .inr ⟨.single, [], rfl, by simp⟩
    · exact .inr ⟨.escape_word, [], rfl, by simp⟩
    · exact .inr ⟨.word, [c], rfl, rfl⟩
  · split_ifs
    · exact .inr ⟨.word, [], rfl, by simp⟩
    · exact .inr ⟨.single, [c], rfl, rfl⟩
  · split_ifs
    · exact .inr ⟨.word, [], rfl, by simp⟩
    · exact .inr ⟨.escape_double, [], rfl, by simp⟩
    · exact .inr ⟨.double, [c], rfl, rfl⟩
  · split_ifs
    · exact .inr ⟨.word, [], rfl, by simp⟩
    · exact .inr ⟨.word, [c], rfl, rfl⟩
  · split_ifs
    · exact .inr ⟨.double, [c], rfl, rfl⟩
    · exact .inr ⟨.double, [], rfl, by simp⟩
    · exact .inr ⟨.double, ['\\', c], rfl, rfl⟩

/-- A plain word in progress is the beginning of the first word. -/
theorem plain_in_word {m : Mode} (hm : in_word m) (cur t : Text) (hok : (plain m cur t).2 = true) :
    ∃ u ws, words_of (plain m cur t).1 = (cur ++ u) :: ws := by
  induction t generalizing m cur with
  | nil =>
    cases m <;> simp [in_word, plain, lex] at hm hok
    exact ⟨[], [], by simp [plain, lex, words_of]⟩
  | cons c t ih =>
    rw [plain, lex_cons] at hok ⊢
    rcases next_in_word hm cur c with h | ⟨m', u, hm', h⟩
    · simp only [h]
      exact ⟨[], words_of (plain .blank [] t).1, by simp [words_of]⟩
    · simp only [h] at hok ⊢
      obtain ⟨v, ws, hw⟩ := ih hm' (cur ++ u) hok
      exact ⟨u ++ v, ws, by simpa using hw⟩

/-- Outside of a word: one plain character stays outside, or starts a word. -/
theorem next_outside {m : Mode} (hm : in_word m = false) (cur : Text) (c : Char) :
    ∃ m', (next (fun _ => false) m cur c = ([], m', []) ∧ in_word m' = false) ∨
      (∃ u, next (fun _ => false) m cur c = ([], m', u) ∧ in_word m' = true) := by
  cases m <;> simp only [in_word, Bool.true_eq_false] at hm <;>
    simp only [next, Bool.false_eq_true, ↓reduceIte]
  · split_ifs
    · exact ⟨.blank, .inl ⟨rfl, rfl⟩⟩
    · exact ⟨.comment, .inl ⟨rfl, rfl⟩⟩
    · exact ⟨.double, .inr ⟨[], rfl, rfl⟩⟩
    · exact ⟨.single, .inr ⟨[], rfl, rfl⟩⟩
    · exact ⟨.escape_blank, .inl ⟨rfl, rfl⟩⟩
    · exact ⟨.word, .inr ⟨[c], rfl, rfl⟩⟩
  · split_ifs
    · exact ⟨.blank, .inl ⟨rfl, rfl⟩⟩
    · exact ⟨.word, .inr ⟨[c], rfl, rfl⟩⟩
  · split_ifs
    · exact ⟨.blank, .inl ⟨rfl, rfl⟩⟩
    · exact ⟨.comment, .inl ⟨rfl, rfl⟩⟩

/-- A text without plain words has only newlines for a shell. -/
theorem only_newlines {m : Mode} (hm : in_word m = false) (cur t : Text)
    (hok : (plain m cur t).2 = true) (hw : words_of (plain m cur t).1 = []) :
    (script_items m cur t).2 = true ∧ ∀ i ∈ (script_items m cur t).1, is_newline i = true := by
  induction t generalizing m cur with
  | nil => cases m <;> simp_all [in_word, plain, script_items, lex]
  | cons c t ih =>
    rw [plain, lex_cons] at hok hw
    rw [script_items, lex_cons]
    -- A step into a word would give a plain word.
    have hstart : ∀ m' u, next (fun _ => false) m cur c = ([], m', u) → in_word m' = false := by
      intro m' u h
      rw [h] at hok hw
      rw [← Bool.not_eq_true]
      intro hm'
      obtain ⟨v, ws, hv⟩ := plain_in_word hm' u t hok
      rw [List.nil_append, hv] at hw
      cases hw
    rcases next_cases m cur c with ⟨heq, hout⟩ | ⟨rfl, -, hs, hp⟩ | ⟨-, rfl, -⟩ |
      ⟨-, -, -, -, hp⟩ | ⟨-, -, rfl, -⟩
    · rw [heq] at hout ⊢
      obtain ⟨m', ⟨h, hm'⟩ | ⟨u, h, hm'⟩⟩ := next_outside hm cur c
      · rw [h] at hok hw ⊢
        exact ih hm' [] hok hw
      · rw [hstart m' u h] at hm'
        cases hm'
    · rw [hp] at hok hw
      rw [hs]
      obtain ⟨hok', hall⟩ := ih rfl [] hok hw
      refine ⟨hok', ?_⟩
      intro i hi
      rcases List.mem_append.mp hi with hi | hi
      · rw [List.mem_singleton.mp hi]
        rfl
      · exact hall i hi
    · cases hm
    · have := hstart _ _ hp
      cases this
    · cases hm

/-- The words before the first operator. -/
def lead : List Item → List Text
  | .word w :: items => w :: lead items
  | _ => []

/-- The items from the first operator on. -/
def after : List Item → List Item
  | .word _ :: items => after items
  | items => items

/-- When the plain words begin the words before the first operator, then they are these words,
and only newlines follow. -/
theorem lead_words (m : Mode) (cur t : Text) (hok : (plain m cur t).2 = true)
    (hpre : words_of (plain m cur t).1 <+: lead (script_items m cur t).1) :
    words_of (plain m cur t).1 = lead (script_items m cur t).1 ∧
      (script_items m cur t).2 = true ∧
      ∀ i ∈ after (script_items m cur t).1, is_newline i = true := by
  induction t generalizing m cur with
  | nil => cases m <;> simp_all [plain, script_items, lex, words_of, lead, after]
  | cons c t ih =>
    rw [plain, lex_cons] at hok hpre ⊢
    rw [script_items, lex_cons] at hpre ⊢
    rcases next_cases m cur c with ⟨heq, hout⟩ | ⟨rfl, -, hs, hp⟩ | ⟨rfl, -, hs, hp⟩ |
      ⟨-, -, -, hs, hp⟩ | ⟨-, -, -, hs, hp⟩
    · rw [← heq] at hok hpre ⊢
      rcases hout with hout | ⟨hout, -⟩
      · rw [hout] at hpre ⊢
        exact ih _ _ hok hpre
      · rw [hout] at hpre ⊢
        simp only [List.cons_append, List.nil_append, words_of, lead, after] at hpre ⊢
        obtain ⟨h1, h2, h3⟩ := ih _ _ hok (List.cons_prefix_cons.mp hpre).2
        exact ⟨by rw [h1], h2, h3⟩
    · rw [hp] at hok hpre ⊢
      rw [hs] at hpre ⊢
      simp only [List.cons_append, List.nil_append, lead, after, List.prefix_nil] at hpre ⊢
      obtain ⟨hok', hall⟩ := only_newlines rfl [] t hok hpre
      exact ⟨hpre, hok', List.forall_mem_cons.mpr ⟨rfl, hall⟩⟩
    · rw [hp] at hok hpre ⊢
      rw [hs] at hpre ⊢
      simp only [List.cons_append, List.nil_append, lead, after, words_of, List.cons_prefix_cons,
        List.prefix_nil, true_and] at hpre ⊢
      obtain ⟨hok', hall⟩ := only_newlines rfl [] t hok hpre
      exact ⟨by rw [hpre], hok', List.forall_mem_cons.mpr ⟨rfl, hall⟩⟩
    -- At another operator the plain reader goes on with a longer word.
    · rw [hp] at hok hpre
      rw [hs] at hpre
      obtain ⟨u, ws, hw⟩ := plain_in_word rfl [c] t hok
      rw [List.nil_append, hw] at hpre
      simp [lead] at hpre
    · rw [hp] at hok hpre
      rw [hs] at hpre
      obtain ⟨u, ws, hw⟩ := plain_in_word rfl (cur ++ [c]) t hok
      rw [List.nil_append, hw] at hpre
      simp [lead] at hpre

/-- The first item of a word in progress is no newline. -/
theorem dropWhile_in_word {m : Mode} (hm : in_word m = true) (cur t : Text) :
    (script_items m cur t).1.dropWhile is_newline = (script_items m cur t).1 := by
  induction t generalizing m cur with
  | nil => cases m <;> simp [script_items, lex, is_newline]
  | cons c t ih =>
    rw [script_items, lex_cons]
    rcases next_cases m cur c with ⟨heq, -⟩ | ⟨-, rfl | rfl, -⟩ | ⟨-, -, hs, -⟩ |
      ⟨-, -, rfl, -⟩ | ⟨-, -, -, hs, -⟩
    · rw [heq]
      rcases next_in_word hm cur c with h | ⟨m', u, hm', h⟩
      · simp [h, is_newline]
      · simp only [h, List.nil_append]
        exact ih hm' (cur ++ u)
    · cases hm
    · cases hm
    · simp [hs, is_newline]
    · cases hm
    · simp [hs, is_newline]

/-- The same when leading newlines are dropped. -/
theorem lead_words_after_newlines {m : Mode} (hm : in_word m = false) (cur t : Text)
    (hok : (plain m cur t).2 = true)
    (hpre : words_of (plain m cur t).1 <+:
      lead ((script_items m cur t).1.dropWhile is_newline)) :
    words_of (plain m cur t).1 = lead ((script_items m cur t).1.dropWhile is_newline) ∧
      (script_items m cur t).2 = true ∧
      ∀ i ∈ after ((script_items m cur t).1.dropWhile is_newline), is_newline i = true := by
  induction t generalizing m cur with
  | nil => cases m <;> simp_all [in_word, plain, script_items, lex, words_of, lead, after]
  | cons c t ih =>
    rw [plain, lex_cons] at hok hpre ⊢
    rw [script_items, lex_cons] at hpre ⊢
    rcases next_cases m cur c with ⟨heq, -⟩ | ⟨rfl, -, hs, hp⟩ | ⟨-, rfl, -⟩ |
      ⟨-, hnl, -, hs, hp⟩ | ⟨-, -, rfl, -⟩
    · rw [heq] at hpre ⊢
      obtain ⟨m', ⟨h, hm'⟩ | ⟨u, h, hm'⟩⟩ := next_outside hm cur c
      · rw [h] at hok hpre ⊢
        exact ih hm' [] hok hpre
      · rw [h] at hok hpre ⊢
        simp only [List.nil_append] at hpre ⊢
        rw [dropWhile_in_word hm'] at hpre ⊢
        exact lead_words m' u t hok hpre
    · rw [hp] at hok hpre ⊢
      rw [hs] at hpre ⊢
      exact ih rfl [] hok hpre
    · cases hm
    · rw [hp] at hok hpre
      rw [hs] at hpre
      obtain ⟨u, ws, hw⟩ := plain_in_word rfl [c] t hok
      rw [List.nil_append, hw] at hpre
      simp [lead, is_newline, hnl] at hpre
    · cases hm

/-- Up to newlines the two readers end alike. -/
theorem closed_eq (m : Mode) (cur t : Text)
    (h : ∀ i ∈ (script_items m cur t).1, ∀ c, i = .op c → c = '\n') :
    (script_items m cur t).2 = (plain m cur t).2 := by
  induction t generalizing m cur with
  | nil => rfl
  | cons c t ih =>
    rw [plain, script_items, lex_cons, lex_cons]
    rw [script_items, lex_cons] at h
    rcases next_cases m cur c with ⟨heq, -⟩ | ⟨rfl, -, hs, hp⟩ | ⟨rfl, -, hs, hp⟩ |
      ⟨-, hnl, -, hs, -⟩ | ⟨-, hnl, -, hs, -⟩
    · rw [heq] at h ⊢
      exact ih _ _ fun i hi => h i (List.mem_append_right _ hi)
    · rw [hs] at h
      rw [hs, hp]
      exact ih _ _ fun i hi => h i (List.mem_append_right _ hi)
    · rw [hs] at h
      rw [hs, hp]
      exact ih _ _ fun i hi => h i (List.mem_append_right _ hi)
    · exact absurd (h (.op c) (by simp [hs]) c rfl) hnl
    · exact absurd (h (.op c) (by simp [hs]) c rfl) hnl

/-! ## The characters of the items -/

def item_size : Item → Nat
  | .word w => w.length
  | .op _ => 1

/-- The backslash that is read and may still come back as a character. -/
def pending : Mode → Nat
  | .escape_double => 1
  | _ => 0

theorem next_size (isOp : Char → Bool) (m : Mode) (cur : Text) (c : Char) :
    ((next isOp m cur c).1.map item_size).sum + (next isOp m cur c).2.2.length +
      pending (next isOp m cur c).2.1 ≤ cur.length + pending m + 1 := by
  cases m <;> simp only [next] <;> split_ifs <;>
    simp only [List.map_cons, List.map_nil, List.sum_cons, List.sum_nil, item_size, pending,
      List.length_append, List.length_cons, List.length_nil] <;> omega

/-- The items have no more characters than the text. -/
theorem lex_size (isOp : Char → Bool) (m : Mode) (cur t : Text) :
    ((lex isOp m cur t).1.map item_size).sum ≤ cur.length + pending m + t.length := by
  induction t generalizing m cur with
  | nil => cases m <;> simp [lex, item_size]
  | cons c t ih =>
    have hnext := next_size isOp m cur c
    have hrest := ih (next isOp m cur c).2.1 (next isOp m cur c).2.2
    rw [lex_cons]
    simp only [List.map_append, List.sum_append, List.length_cons]
    omega

/-! ## The first simple command -/

theorem groups_lead (closed : Bool) (group : List Text) (items : List Item) :
    groups closed group items =
      match after items with
      | [] => if closed then [group ++ lead items] else []
      | _ :: rest => (group ++ lead items) :: groups closed [] rest := by
  induction items generalizing group with
  | nil => simp [groups, after, lead]
  | cons i items ih =>
    cases i with
    | word w =>
      simp only [groups, after, lead, ih]
      simp
    | op c => simp [groups, after, lead]

theorem groups_newlines (closed : Bool) {items : List Item}
    (h : ∀ i ∈ items, is_newline i = true) : (groups closed [] items).filter (· ≠ []) = [] := by
  induction items with
  | nil => cases closed <;> rfl
  | cons i items ih =>
    cases i with
    | word w => cases h (.word w) List.mem_cons_self
    | op c => simpa [groups] using ih fun i hi => h i (List.mem_cons_of_mem _ hi)

/-- A script with a command starts with a word, past its first newlines, and the first command is
the words before the first operator. -/
theorem first_command {script : Text} {c : List Text} {cs : List (List Text)}
    (hs : simple_commands script = c :: cs) :
    c = lead ((script_items .blank [] script).1.dropWhile is_newline) ∧
      match after ((script_items .blank [] script).1.dropWhile is_newline) with
      | [] => (script_items .blank [] script).2 = true ∧ cs = []
      | _ :: rest => cs = (groups (script_items .blank [] script).2 [] rest).filter (· ≠ []) := by
  unfold simple_commands at hs
  rcases hlex : lex is_operator .blank [] script with ⟨items, closed⟩
  simp only [script_items, hlex] at hs ⊢
  rcases hd : items.dropWhile is_newline with _ | ⟨i, rest⟩
  · rw [hd] at hs
    cases closed <;> simp [groups] at hs
  · rw [hd] at hs
    cases i with
    | op o => cases hs
    | word w =>
      dsimp only at hs
      rw [groups_lead, List.nil_append] at hs
      rcases ha : after (.word w :: rest) with _ | ⟨o, rest'⟩
      · rw [ha] at hs
        cases closed
        · simp at hs
        · simp only [↓reduceIte, lead, ne_eq, reduceCtorEq, not_false_eq_true, decide_true,
            List.filter_cons_of_pos, List.filter_nil, List.cons.injEq] at hs
          exact ⟨hs.1.symm, rfl, hs.2.symm⟩
      · rw [ha] at hs
        simp only [lead, ne_eq, reduceCtorEq, not_false_eq_true, decide_true,
          List.filter_cons_of_pos, List.cons.injEq] at hs
        exact ⟨hs.1.symm, hs.2.symm⟩

/-- When the plain words of a script begin its first command, then they are its one command. -/
theorem words_begin_first {script : Text} {ws c : List Text} {cs : List (List Text)}
    (hw : words script = some ws) (hs : simple_commands script = c :: cs) (hp : ws <+: c) :
    c = ws ∧ cs = [] := by
  obtain ⟨hc, hcs⟩ := first_command hs
  have hplain : (plain .blank [] script).2 = true ∧ words_of (plain .blank [] script).1 = ws := by
    unfold words at hw
    rcases hlex : lex (fun _ => false) .blank [] script with ⟨items, _ | _⟩
    · rw [hlex] at hw
      cases hw
    · rw [hlex] at hw
      exact ⟨by rw [plain, hlex], by rw [plain, hlex]; exact Option.some.inj hw⟩
  obtain ⟨hok, hws⟩ := hplain
  rw [hc, ← hws] at hp
  obtain ⟨heq, hclosed, hnl⟩ := lead_words_after_newlines rfl [] script hok hp
  refine ⟨by rw [hc, ← heq, hws], ?_⟩
  rcases ha : after ((script_items .blank [] script).1.dropWhile is_newline) with _ | ⟨o, rest⟩
  · rw [ha] at hcs
    exact hcs.2
  · rw [ha] at hcs hnl
    rw [hcs]
    exact groups_newlines _ fun i hi => hnl i (List.mem_cons_of_mem _ hi)

theorem lead_mem {items : List Item} {w : Text} (h : w ∈ lead items) : Item.word w ∈ items := by
  induction items with
  | nil => cases h
  | cons i items ih =>
    cases i with
    | op c => cases h
    | word v =>
      rcases List.mem_cons.mp h with rfl | h
      · exact List.mem_cons_self
      · exact List.mem_cons_of_mem _ (ih h)

theorem after_eq_nil {items : List Item} (h : after items = []) : ∀ i ∈ items, ∀ c, i ≠ .op c := by
  induction items with
  | nil => simp
  | cons i items ih =>
    cases i with
    | op c => cases h
    | word v =>
      intro j hj c hjc
      rcases List.mem_cons.mp hj with rfl | hj
      · cases hjc
      · exact ih h j hj c hjc

theorem after_cons_mem {items rest : List Item} {i : Item} (h : after items = i :: rest) :
    i ∈ items ∧ ∃ c, i = .op c := by
  induction items with
  | nil => cases h
  | cons j items ih =>
    cases j with
    | op c =>
      obtain ⟨rfl, -⟩ := List.cons.inj h
      exact ⟨List.mem_cons_self, c, rfl⟩
    | word v =>
      obtain ⟨hi, hc⟩ := ih h
      exact ⟨List.mem_cons_of_mem _ hi, hc⟩

/-- The text of a script with an open quote is no word of its first command. -/
theorem open_script_begins_none {script : Text} {c : List Text} {cs : List (List Text)}
    (hw : words script = none) (hs : simple_commands script = c :: cs) : ¬ [script] <+: c := by
  intro hp
  obtain ⟨hc, hcs⟩ := first_command hs
  have hopen : (plain .blank [] script).2 = false := by
    unfold words at hw
    rcases hlex : lex (fun _ => false) .blank [] script with ⟨items, _ | _⟩
    · rw [plain, hlex]
    · rw [hlex] at hw
      cases hw
  have hmem : ∀ i ∈ (script_items .blank [] script).1.dropWhile is_newline,
      i ∈ (script_items .blank [] script).1 :=
    fun i hi => (List.dropWhile_sublist _).mem hi
  rcases ha : after ((script_items .blank [] script).1.dropWhile is_newline) with _ | ⟨o, rest⟩
  · rw [ha] at hcs
    -- Without an operator both readers end alike, and this one is closed.
    have hnl : ∀ i ∈ (script_items .blank [] script).1, ∀ c, i = .op c → c = '\n' := by
      intro i hi c hic
      rw [← @List.takeWhile_append_dropWhile _ is_newline (script_items .blank [] script).1] at hi
      rcases List.mem_append.mp hi with hi | hi
      · have := List.mem_takeWhile_imp hi
        rw [hic] at this
        simpa [is_newline] using this
      · exact absurd hic (after_eq_nil ha i hi c)
    rw [closed_eq _ _ _ hnl, hopen] at hcs
    cases hcs.1
  · -- With one, the word and the operator are more than the script.
    obtain ⟨ho, oc, rfl⟩ := after_cons_mem ha
    have hword : Item.word script ∈ (script_items .blank [] script).1 := by
      apply hmem
      apply lead_mem
      rw [← hc]
      exact hp.mem List.mem_cons_self
    have hsize := lex_size is_operator .blank [] script
    have hperm := List.perm_cons_erase hword
    have hop : Item.op oc ∈ (script_items .blank [] script).1.erase (.word script) :=
      (List.mem_erase_of_ne (by simp)).mpr (hmem _ ho)
    have hsum := (hperm.trans ((List.perm_cons_erase hop).cons _)).map item_size |>.sum_eq
    simp only [List.map_cons, List.sum_cons, item_size] at hsum
    simp only [script_items] at hsum
    simp only [pending, List.length_nil] at hsize
    omega

end Ecode.shell
