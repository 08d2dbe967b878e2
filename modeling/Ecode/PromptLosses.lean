-- What a prompt loses that is not clear: words for which its expansion is not what it is to be.
import Ecode.PromptArguments
import Ecode.TextLines

namespace Ecode.prompt_args

open windows_safe_commands (split_once)

/-! ## Words that give every name an empty value -/

/-- Words that give every one of these names an empty value. -/
def empty_values (keys : List Text) : List Text := keys.map (· ++ ['='])

theorem split_once_key {key : Text} (h : '=' ∉ key) (value : Text) :
    split_once '=' (key ++ '=' :: value) = some (key, value) := by
  have hkey : ∀ c ∈ key, decide (c ≠ '=') = true := by
    intro c hc
    exact decide_eq_true fun he => h (he ▸ hc)
  unfold split_once
  rw [List.dropWhile_append_of_pos hkey, List.takeWhile_append_of_pos hkey]
  simp

theorem parse_empty_values {keys : List Text} (h : ∀ key ∈ keys, key ≠ [] ∧ '=' ∉ key)
    (map : List (Text × Text)) : parse_tokens map (empty_values keys) =
      .ok ((keys.map (·, [])).foldl (keyed.insert Prod.fst) map) := by
  induction keys generalizing map with
  | nil => rfl
  | cons key keys ih =>
    obtain ⟨hne, hfree⟩ := h key List.mem_cons_self
    have hrest := ih fun k hk => h k (List.mem_cons_of_mem key hk)
    unfold empty_values at hrest ⊢
    rw [List.map_cons, parse_tokens, split_once_key hfree]
    dsimp only
    rw [if_neg (by simp [hne]), hrest]
    rfl

theorem assigned_empty_values {keys : List Text} (h : ∀ key ∈ keys, '=' ∉ key) (name : Text) :
    assigned (empty_values keys) name = [] := by
  unfold assigned
  cases hfind : (empty_values keys).reverse.findSome? fun word =>
      (split_once '=' word).filter fun input => input.1 = name with
  | none => rfl
  | some input =>
    obtain ⟨word, hword, hinput⟩ := List.exists_of_findSome?_eq_some hfind
    obtain ⟨key, hkey, rfl⟩ := List.mem_map.mp (List.mem_reverse.mp hword)
    rw [split_once_key (h key hkey)] at hinput
    obtain ⟨hsome, -⟩ := Option.filter_eq_some_iff.mp hinput
    rw [← Option.some.inj hsome]
    rfl

/-! ## More `=` signs than the expansion gives -/

/-- What is to be made of the tokens has more `=` signs than what is made of the segments, by one
for each numeric placeholder. -/
def Fewer (inputs : List (Text × Text)) (words : List Text) (ss : List Segment)
    (ts : List Token) : Prop :=
  List.count '=' (ss.flatMap (replacement inputs)) + ts.countP Token.is_numeric ≤
    List.count '=' (ts.flatMap (Token.value words))

section counting

variable {inputs : List (Text × Text)} {words : List Text}

theorem Fewer.append {ss ss' : List Segment} {ts ts' : List Token}
    (h : Fewer inputs words ss ts) (h' : Fewer inputs words ss' ts') :
    Fewer inputs words (ss ++ ss') (ts ++ ts') := by
  unfold Fewer at *
  rw [List.flatMap_append, List.flatMap_append, List.count_append, List.count_append,
    List.countP_append]
  omega

theorem fewer_text (c : Char) : Fewer inputs words [.plain c] [.text c] := by
  simp [Fewer, replacement, Token.value, Token.is_numeric]

theorem fewer_escape : Fewer inputs words [.plain '$', .plain '$'] [.escape] := by
  simp [Fewer, replacement, Token.value, Token.is_numeric]

theorem count_found (hinputs : ∀ name input, keyed.get Prod.fst inputs name = some input →
    input.2 = []) (d : Bool) {name t : Text} (h : IsName name t) :
    List.count '=' (replacement inputs (.found d name)) = 0 := by
  have hname : List.count '=' name = 0 := by
    apply List.count_eq_zero.mpr
    intro hin
    exact ne_equals_of_name_char (h.name_char _ hin) rfl
  have hkept : List.count '=' ('$' :: name) = 0 := by simp [hname]
  cases d with
  | true => exact hkept
  | false =>
    unfold replacement
    dsimp only
    cases hget : keyed.get Prod.fst inputs name with
    | none => exact hkept
    | some input =>
      rw [Option.map_some, Option.getD_some, hinputs name input hget]
      rfl

theorem fewer_found (hinputs : ∀ name input, keyed.get Prod.fst inputs name = some input →
    input.2 = []) (d : Bool) {name t : Text} (h : IsName name t) (token : Token)
    (htoken : token.is_numeric = true → '=' ∈ token.value words) :
    Fewer inputs words [.found d name] [token] := by
  have hcount := count_found hinputs d h
  simp only [Fewer, List.flatMap_cons, List.flatMap_nil, List.append_nil, hcount,
    List.countP_singleton, zero_add]
  split_ifs with hnumeric
  · exact List.count_pos_iff.mpr (htoken hnumeric)
  · exact Nat.zero_le _

theorem fewer_quoted (hinputs : ∀ name input, keyed.get Prod.fst inputs name = some input →
    input.2 = []) {name t : Text} (h : IsName name t) :
    Fewer inputs words [.plain '$', .found true name] (.escape :: name.map .text) := by
  have hnone : (name.map Token.text).countP Token.is_numeric = 0 := by
    simp [Token.is_numeric]
  have hcount := count_found hinputs true h
  unfold Fewer
  rw [List.flatMap_cons, List.flatMap_cons, List.flatMap_cons, flatMap_texts, List.countP_cons,
    hnone, List.flatMap_nil, List.append_nil, List.count_append, hcount]
  exact Nat.zero_le _

/-- The words have a `=` sign for each numeric placeholder; the inputs have none. -/
theorem fewer_equals (d : Bool) (t : Text)
    (hinputs : ∀ name input, keyed.get Prod.fst inputs name = some input → input.2 = [])
    (hpositional : ∀ idx < 9, '=' ∈ words.getD idx [])
    (harguments : '=' ∈ Text.join [' '] words) :
    Fewer inputs words (segments d 0 t) (tokens 0 t) := by
  induction d, t using scan_induction with
  | nil d => exact Nat.le_refl 0
  | text d c t hc ih =>
    rw [segments_text hc, tokens_text hc]
    exact (fewer_text c).append ih
  | escape d t hno ih =>
    rw [segments_dollar rfl, segments_dollar hno, tokens_escape]
    exact fewer_escape.append ih
  | quoted d n t hn ih =>
    rw [segments_dollar rfl, segments_name hn, tokens_escape, tokens_plain hn.ne_dollar]
    exact (fewer_quoted hinputs hn).append ih
  | positional d c t idx hidx ih =>
    have hlt : idx < 9 := position_lt hidx
    have hpiece : Fewer inputs words [.plain '$', .plain c] [.positional idx] := by
      have hnone : List.count '=' ['$'] + List.count '=' [c] = 0 := by
        simp [digit_ne_equals hidx]
      have hpos := List.count_pos_iff.mpr (hpositional idx hlt)
      simp only [Fewer, List.flatMap_cons, List.flatMap_nil, List.append_nil, replacement,
        Token.value, List.countP_singleton, Token.is_numeric, if_true, List.count_append]
      omega
    rw [segments_dollar (name_at_digit hidx), segments_text (digit_ne_dollar hidx),
      tokens_positional hidx]
    exact hpiece.append ih
  | name d n t hn ih =>
    rw [segments_name hn, tokens_name hn]
    refine (fewer_found hinputs d hn _ ?_).append ih
    intro hnumeric
    split_ifs at hnumeric ⊢ with hname
    · exact harguments
    · cases hnumeric
  | lone d t hhead hposition hno ih =>
    rw [segments_dollar hno, tokens_lone hhead hposition hno]
    exact (fewer_text '$').append ih

end counting

/-! ## A text that is longer than it is to be -/

theorem Behind.cases {d : Bool} {token : Token} {ts : List Token} (h : Behind d (token :: ts)) :
    (d = true ∧ ∃ name, token = .named name) ∨ (token = .escape ∧ Behind true ts) ∨
      Behind false ts := by
  obtain ⟨name, hname⟩ := h
  have hinner : [.escape, .named name] <:+: token :: ts →
      (token = .escape ∧ Behind true ts) ∨ Behind false ts := by
    intro h
    rcases List.infix_cons_iff.mp h with ⟨rest, hrest⟩ | hpart
    · obtain ⟨htoken, rfl⟩ := List.cons.inj hrest
      exact .inl ⟨htoken.symm, behind_named name rest⟩
    · exact .inr ⟨name, hpart⟩
  cases d with
  | false => exact .inr (hinner hname)
  | true =>
    rcases List.infix_cons_iff.mp hname with ⟨rest, hrest⟩ | hpart
    · obtain ⟨-, htail⟩ := List.cons.inj hrest
      exact .inl ⟨rfl, name, (List.cons.inj htail).1.symm⟩
    · exact .inr (hinner hpart)

theorem Behind.with_flag {ts : List Token} (h : Behind false ts) : Behind true ts := by
  obtain ⟨name, hname⟩ := h
  exact ⟨name, hname.trans (List.suffix_cons _ _).isInfix⟩

theorem Behind.after_text {d : Bool} {c : Char} {ts : List Token}
    (h : Behind d (.text c :: ts)) : Behind false ts := by
  rcases h.cases with ⟨-, name, hname⟩ | ⟨htoken, -⟩ | h
  · cases hname
  · cases htoken
  · exact h

theorem Behind.after_escape {d : Bool} {ts : List Token} (h : Behind d (.escape :: ts)) :
    Behind true ts := by
  rcases h.cases with ⟨-, name, hname⟩ | ⟨-, h⟩ | h
  · cases hname
  · exact h
  · exact h.with_flag

theorem Behind.after_texts {d : Bool} {name : Text} {ts : List Token} (hsome : name ≠ [])
    (h : Behind d (name.map .text ++ ts)) : Behind false ts := by
  induction name generalizing d with
  | nil => exact absurd rfl hsome
  | cons c cs ih =>
    have hrest : Behind false (cs.map .text ++ ts) := h.after_text
    cases cs with
    | nil => exact hrest
    | cons b bs => exact ih (by simp) hrest

/-- What is to be made of the tokens is not longer than what is made of the segments, and shorter
if a placeholder stands right behind a doubled `$`. -/
theorem longer_behind {inputs : List (Text × Text)} {words : List Text} (d : Bool) (t : Text)
    (hvalues : ∀ name, assigned words name = [])
    (hnumeric : ∀ p ∈ tokens 0 t, p.is_numeric = false) :
    ((tokens 0 t).flatMap (Token.value words)).length ≤
        ((segments d 0 t).flatMap (replacement inputs)).length ∧
      (Behind d (tokens 0 t) → ((tokens 0 t).flatMap (Token.value words)).length <
        ((segments d 0 t).flatMap (replacement inputs)).length) := by
  induction d, t using scan_induction with
  | nil d =>
    refine ⟨le_rfl, ?_⟩
    rintro ⟨name, hname⟩
    cases d with
    | false => exact absurd hname.length_le (by simp [tokens])
    | true => exact absurd hname.length_le (by simp [tokens])
  | text d c t hc ih =>
    rw [tokens_text hc] at hnumeric ⊢
    obtain ⟨hle, hlt⟩ := ih fun p hp => hnumeric p (List.mem_cons_of_mem _ hp)
    rw [segments_text hc]
    simp only [List.flatMap_cons, List.length_append, replacement, Token.value]
    exact ⟨by omega, fun hb => by have hrest := hlt hb.after_text; omega⟩
  | escape d t hno ih =>
    rw [tokens_escape] at hnumeric ⊢
    obtain ⟨hle, hlt⟩ := ih fun p hp => hnumeric p (List.mem_cons_of_mem _ hp)
    rw [segments_dollar rfl, segments_dollar hno]
    have htwo : (Token.escape.value words).length = 2 := rfl
    simp only [List.flatMap_cons, List.length_append, replacement, htwo, List.length_singleton]
    exact ⟨by omega, fun hb => by have hrest := hlt hb.after_escape; omega⟩
  | quoted d n t hn ih =>
    rw [tokens_escape, tokens_plain hn.ne_dollar] at hnumeric ⊢
    obtain ⟨hle, hlt⟩ := ih fun p hp =>
      hnumeric p (List.mem_cons_of_mem _ (List.mem_append_right _ hp))
    rw [segments_dollar rfl, segments_name hn]
    have htwo : (Token.escape.value words).length = 2 := rfl
    have hsome : n ≠ [] := by
      obtain ⟨c, cs, rfl, -⟩ := hn.upper
      simp
    simp only [List.flatMap_cons, List.flatMap_append, flatMap_texts, List.length_append,
      replacement, htwo, List.length_cons]
    exact ⟨by omega, fun hb => by have hrest := hlt (hb.after_escape.after_texts hsome); omega⟩
  | positional d c t idx hidx ih =>
    rw [tokens_positional hidx] at hnumeric
    cases hnumeric _ List.mem_cons_self
  | name d n t hn ih =>
    rw [tokens_name hn] at hnumeric ⊢
    have hname : n ≠ ARGUMENTS := by
      intro heq
      rw [if_pos heq] at hnumeric
      cases hnumeric _ List.mem_cons_self
    rw [if_neg hname] at hnumeric ⊢
    obtain ⟨hle, hlt⟩ := ih fun p hp => hnumeric p (List.mem_cons_of_mem _ hp)
    rw [segments_name hn]
    have hempty : (Token.named n).value words = [] := hvalues n
    simp only [List.flatMap_cons, hempty, List.nil_append, List.length_append]
    refine ⟨by omega, fun hb => ?_⟩
    rcases hb.cases with ⟨rfl, -⟩ | ⟨htoken, -⟩ | hrest
    · simp only [replacement, List.length_cons]
      omega
    · cases htoken
    · have hshort := hlt hrest
      omega
  | lone d t hhead hposition hno ih =>
    rw [tokens_lone hhead hposition hno] at hnumeric ⊢
    obtain ⟨hle, hlt⟩ := ih fun p hp => hnumeric p (List.mem_cons_of_mem _ hp)
    rw [segments_dollar hno]
    simp only [List.flatMap_cons, List.length_append, replacement, Token.value]
    exact ⟨by omega, fun hb => by have hrest := hlt hb.after_text.with_flag; omega⟩

/-! ## The words as they are typed -/

/-- A character that a word may have without quotes. -/
def is_plain (c : Char) : Bool := !([' ', '\t', '\n', '"', '\'', '\\', '#'].contains c)

theorem lex_plain {w : Text} (hw : ∀ c ∈ w, is_plain c) (cur t : Text) :
    shell.lex (fun _ => false) .word cur (w ++ t) =
      shell.lex (fun _ => false) .word (cur ++ w) t := by
  induction w generalizing cur with
  | nil => rw [List.nil_append, List.append_nil]
  | cons c w ih =>
    have hc := hw c List.mem_cons_self
    have hnext : shell.next (fun _ => false) .word cur c = ([], .word, cur ++ [c]) := by
      simp only [is_plain, Bool.not_eq_true', List.contains_eq_mem, decide_eq_false_iff_not] at hc
      simp at hc
      simp [shell.next, shell.is_blank, hc]
    have hrest := ih (fun b hb => hw b (List.mem_cons_of_mem c hb)) (cur ++ [c])
    rw [List.cons_append, shell.lex_cons, hnext, hrest]
    simp

theorem lex_word {w : Text} (hsome : w ≠ []) (hw : ∀ c ∈ w, is_plain c) (t : Text) :
    shell.lex (fun _ => false) .blank [] (w ++ t) = shell.lex (fun _ => false) .word w t := by
  cases w with
  | nil => exact absurd rfl hsome
  | cons c w =>
    have hc := hw c List.mem_cons_self
    have hnext : shell.next (fun _ => false) .blank [] c = ([], .word, [c]) := by
      simp only [is_plain, Bool.not_eq_true', List.contains_eq_mem, decide_eq_false_iff_not] at hc
      simp at hc
      simp [shell.next, shell.is_blank, hc]
    have hrest := lex_plain (fun b hb => hw b (List.mem_cons_of_mem c hb)) [c] t
    rw [List.cons_append, shell.lex_cons, hnext, hrest]
    simp

theorem lex_join {ws : List Text} (hws : ∀ w ∈ ws, w ≠ [] ∧ ∀ c ∈ w, is_plain c) :
    shell.lex (fun _ => false) .blank [] (Text.join [' '] ws) = (ws.map .word, true) := by
  induction ws with
  | nil => rfl
  | cons w ws ih =>
    obtain ⟨hsome, hplain⟩ := hws w List.mem_cons_self
    have hrest := ih fun v hv => hws v (List.mem_cons_of_mem w hv)
    cases ws with
    | nil =>
      have hword := lex_word hsome hplain []
      rw [List.append_nil] at hword
      exact hword
    | cons v vs =>
      have hjoin : Text.join [' '] (w :: v :: vs) = w ++ ' ' :: Text.join [' '] (v :: vs) := by
        simp [Text.join]
      rw [hjoin, lex_word hsome hplain, shell.lex_cons]
      have hnext : shell.next (fun _ => false) .word w ' ' = ([.word w], .blank, []) := rfl
      rw [hnext, hrest]
      rfl

/-- Words without special characters are read back. -/
theorem words_join {ws : List Text} (hws : ∀ w ∈ ws, w ≠ [] ∧ ∀ c ∈ w, is_plain c) :
    shell.words (Text.join [' '] ws) = some ws := by
  have hitems : shell.words_of (ws.map .word) = ws := by
    induction ws with
    | nil => rfl
    | cons w ws ih =>
      rw [List.map_cons, shell.words_of, ih fun v hv => hws v (List.mem_cons_of_mem w hv)]
  unfold shell.words
  rw [lex_join hws]
  dsimp only
  rw [hitems]

/-! ## The arguments -/

theorem name_of_token {t name : Text} (h : .named name ∈ tokens 0 t) :
    name ≠ [] ∧ ∀ c ∈ name, is_name_char c := by
  have d := false
  induction d, t using scan_induction with
  | nil d => cases h
  | text d c t hc ih =>
    rw [tokens_text hc] at h
    exact ih (by simpa using h)
  | escape d t hno ih =>
    rw [tokens_escape] at h
    exact ih (by simpa using h)
  | quoted d n t hn ih =>
    rw [tokens_escape, tokens_plain hn.ne_dollar] at h
    exact ih (by simpa using h)
  | positional d c t idx hidx ih =>
    rw [tokens_positional hidx] at h
    exact ih (by simpa using h)
  | name d n t hn ih =>
    rw [tokens_name hn, List.mem_cons] at h
    rcases h with heq | h
    · split_ifs at heq
      obtain rfl := Token.named.inj heq
      obtain ⟨c, cs, hname, -⟩ := hn.upper
      exact ⟨by simp [hname], hn.name_char⟩
    · exact ih h
  | lone d t hhead hposition hno ih =>
    rw [tokens_lone hhead hposition hno] at h
    exact ih (by simpa using h)

def names_in (content : Text) : List Text :=
  (tokens 0 content).filterMap fun
    | .named name => some name
    | _ => none

theorem mem_names_in {content name : Text} :
    name ∈ names_in content ↔ .named name ∈ tokens 0 content := by
  unfold names_in
  rw [List.mem_filterMap]
  constructor
  · rintro ⟨token, htoken, heq⟩
    cases token with
    | named other =>
      obtain rfl := Option.some.inj heq
      exact htoken
    | text c => cases heq
    | escape => cases heq
    | positional idx => cases heq
    | arguments => cases heq
  · intro h
    exact ⟨_, h, rfl⟩

/-- The names of a prompt and enough others that each of `$1` to `$9` has its word. -/
def all_keys (content : Text) : List Text :=
  ['x'] :: (names_in content ++ List.replicate 8 ['x'])

def all_words (content : Text) : List Text := empty_values (all_keys content)

theorem name_of_key {content key : Text} (h : key ∈ all_keys content) :
    key ≠ [] ∧ ∀ c ∈ key, is_name_char c ∨ c = 'x' := by
  unfold all_keys at h
  rw [List.mem_cons, List.mem_append, List.mem_replicate] at h
  rcases h with rfl | hname | ⟨-, rfl⟩
  · simp
  · obtain ⟨hsome, hchars⟩ := name_of_token (mem_names_in.mp hname)
    exact ⟨hsome, fun c hc => .inl (hchars c hc)⟩
  · simp

theorem no_equals_in_key {content key : Text} (h : key ∈ all_keys content) : '=' ∉ key := by
  intro hin
  rcases (name_of_key h).2 _ hin with hname | heq
  · exact ne_equals_of_name_char hname rfl
  · cases heq

theorem plain_of_name_char {c : Char} (h : is_name_char c) : is_plain c := by
  have hall : ∀ b ∈ [' ', '\t', '\n', '"', '\'', '\\', '#'], is_name_char b = false := by
    intro b hb
    fin_cases hb <;> rfl
  unfold is_plain
  simp only [Bool.not_eq_true', List.contains_eq_mem, decide_eq_false_iff_not]
  intro hin
  rw [hall c hin] at h
  cases h

theorem plain_all_words (content : Text) :
    ∀ w ∈ all_words content, w ≠ [] ∧ ∀ c ∈ w, is_plain c := by
  intro w hw
  obtain ⟨key, hkey, rfl⟩ := List.mem_map.mp hw
  refine ⟨by simp, ?_⟩
  intro c hc
  rcases List.mem_append.mp hc with hc | hc
  · rcases (name_of_key hkey).2 c hc with hname | rfl
    · exact plain_of_name_char hname
    · rfl
  · rw [List.mem_singleton.mp hc]
    rfl

theorem equals_in_word {content w : Text} (h : w ∈ all_words content) : '=' ∈ w := by
  obtain ⟨key, -, rfl⟩ := List.mem_map.mp h
  simp

theorem equals_in_position (content : Text) {idx : Nat} (h : idx < 9) :
    '=' ∈ (all_words content).getD idx [] := by
  have hlen : idx < (all_words content).length := by
    simp only [all_words, empty_values, all_keys, List.length_map, List.length_cons,
      List.length_append, List.length_replicate]
    omega
  rw [List.getD_eq_getElem _ _ hlen]
  exact equals_in_word (List.getElem_mem hlen)

theorem join_all_words (content : Text) :
    ∃ t, Text.join [' '] (all_words content) = 'x' :: '=' :: t := by
  unfold all_words all_keys empty_values
  rw [List.map_cons]
  cases names_in content <;> exact ⟨_, rfl⟩

/-! ## The call -/

section call

variable {shlex : Text → List Text} {content : Text}

/-- The text of a call with these words. -/
def call_text (content : Text) : Text :=
  "/prompts:p ".toList ++ Text.join [' '] (all_words content)

theorem calls_call_text (builtins : List Text) (content : Text) :
    Calls builtins (call_text content) [{ name := ['p'], content := content }]
      "prompts:p".toList (Text.join [' '] (all_words content)) content := by
  obtain ⟨t, ht⟩ := join_all_words content
  refine ⟨?_, _, rfl, rfl⟩
  unfold call_text
  rw [ht]
  rfl

/-- The inputs that the words give. -/
def all_inputs (content : Text) : List (Text × Text) :=
  ((all_keys content).map (·, [])).foldl (keyed.insert Prod.fst) []

theorem parse_all_words (hposix : ∀ t ws, shell.words t = some ws → shlex t = ws) :
    parse_prompt_inputs shlex (Text.join [' '] (all_words content)) = .ok (all_inputs content) := by
  obtain ⟨t, ht⟩ := join_all_words content
  have hblank : Text.trim (Text.join [' '] (all_words content)) ≠ [] := by
    rw [ht]
    exact Text.trim_ne_nil rfl (by decide)
  have hkeys : ∀ key ∈ all_keys content, key ≠ [] ∧ '=' ∉ key :=
    fun key hkey => ⟨(name_of_key hkey).1, no_equals_in_key hkey⟩
  unfold parse_prompt_inputs
  rw [if_neg (by simpa using hblank), hposix _ _ (words_join (plain_all_words content))]
  exact parse_empty_values hkeys []

theorem keys_ok {key : Text} (h : key ∈ all_keys content) : key ≠ [] ∧ '=' ∉ key :=
  ⟨(name_of_key h).1, no_equals_in_key h⟩

theorem get_all_inputs {name : Text} {input : Text × Text}
    (h : keyed.get Prod.fst (all_inputs content) name = some input) : input.2 = [] := by
  have hparse : parse_tokens [] (all_words content) = .ok (all_inputs content) :=
    parse_empty_values (fun _ => keys_ok) []
  rw [value_of_input hparse h]
  exact assigned_empty_values (fun _ => no_equals_in_key) name

theorem all_inputs_isSome {name : Text} (h : .named name ∈ tokens 0 content) :
    (keyed.get Prod.fst (all_inputs content) name).isSome := by
  have hkey : (name, ([] : Text)) ∈ (all_keys content).map (·, ([] : Text)) := by
    apply List.mem_map_of_mem
    exact List.mem_cons_of_mem _ (List.mem_append_left _ (mem_names_in.mpr h))
  obtain ⟨input, -, -, hget⟩ : ∃ v ∈ (all_keys content).map (·, ([] : Text)), v.1 = name ∧
      keyed.get Prod.fst (all_inputs content) name = some v := keyed.stored_last hkey []
  rw [hget]
  rfl

/-- The call succeeds. If a named placeholder is found, the prompt's are replaced. -/
theorem call_succeeds (hposix : ∀ t ws, shell.words t = some ws → shlex t = ws) (name : Text) :
    ∃ result, expand_prompt shlex name (Text.join [' '] (all_words content)) content = .ok result ∧
      (prompt_argument_names content ≠ [] → result = replace_all (all_inputs content) content) := by
  unfold expand_prompt
  dsimp only
  by_cases hrequired : prompt_argument_names content = []
  · rw [hrequired, if_neg (by simp)]
    split_ifs <;> exact ⟨_, rfl, fun h => absurd rfl h⟩
  · have hmissing : (prompt_argument_names content).filter (fun k =>
        (keyed.get Prod.fst (all_inputs content) k).isNone) = [] := by
      apply List.filter_eq_nil_iff.mpr
      intro k hk
      obtain ⟨hfound, hne⟩ := mem_prompt_argument_names.mp hk
      have hsome := all_inputs_isSome (named_of_found hne hfound)
      rw [Option.isNone_iff_eq_none]
      intro hnone
      rw [hnone] at hsome
      cases hsome
    rw [if_pos (by simpa using hrequired), parse_all_words hposix]
    dsimp only
    rw [hmissing, if_neg (by simp)]
    exact ⟨_, rfl, fun _ => rfl⟩

/-- A prompt that keeps the arguments of this call is clear. -/
theorem clear_of_kept (hposix : ∀ t ws, shell.words t = some ws → shlex t = ws) {result : Text}
    (h : Kept shlex content (Text.join [' '] (all_words content)) result)
    (hresult : prompt_argument_names content ≠ [] →
      result = replace_all (all_inputs content) content) : Clear content := by
  have hwords : shlex (Text.join [' '] (all_words content)) = all_words content :=
    hposix _ _ (words_join (plain_all_words content))
  have hreplaced : ∀ name, .named name ∈ tokens 0 content →
      (segments false 0 content).flatMap (replacement (all_inputs content)) =
        (tokens 0 content).flatMap (Token.value (all_words content)) := by
    intro name hname
    have hsome : prompt_argument_names content ≠ [] :=
      List.ne_nil_of_mem ((h.names name).mpr hname)
    rw [← hwords, ← h.replaced ⟨_, hname, rfl⟩]
    exact (hresult hsome).symm
  have hone : (∃ name, .named name ∈ tokens 0 content) →
      ∀ p ∈ tokens 0 content, p.is_numeric = false := by
    rintro ⟨name, hname⟩
    have hjoin : '=' ∈ Text.join [' '] (all_words content) := by
      obtain ⟨t, ht⟩ := join_all_words content
      simp [ht]
    have hcount : Fewer (all_inputs content) (all_words content) (segments false 0 content)
        (tokens 0 content) :=
      fewer_equals false content (fun _ _ => get_all_inputs)
        (fun _ => equals_in_position content) hjoin
    unfold Fewer at hcount
    rw [hreplaced name hname] at hcount
    have hzero : (tokens 0 content).countP Token.is_numeric = 0 := by omega
    intro p hp
    simpa using List.countP_eq_zero.mp hzero p hp
  refine ⟨hone, ?_, fun hlooks => h.numeric.mp ((prompt_has_numeric_iff content).mpr hlooks)⟩
  intro hbehind
  obtain ⟨name, hpart⟩ := hbehind
  have hname : .named name ∈ tokens 0 content := hpart.subset (by simp)
  have hvalues : ∀ name, assigned (all_words content) name = [] :=
    assigned_empty_values fun _ => no_equals_in_key
  have hshorter : ((tokens 0 content).flatMap (Token.value (all_words content))).length <
      ((segments false 0 content).flatMap (replacement (all_inputs content))).length :=
    (longer_behind false content hvalues (hone ⟨name, hname⟩)).2 ⟨name, hpart⟩
  rw [hreplaced name hname] at hshorter
  exact absurd hshorter (lt_irrefl _)

end call

/-! ## The result -/

/-- A prompt keeps the arguments of every call exactly if it is clear. -/
theorem keeps_arguments_iff {shlex : Text → List Text}
    (hposix : ∀ t ws, shell.words t = some ws → shlex t = ws) (builtins : List Text)
    (content : Text) : KeepsArguments shlex builtins content ↔ Clear content := by
  constructor
  · intro h
    have hcall := calls_call_text builtins content
    obtain ⟨result, hexpand, hresult⟩ := @call_succeeds shlex content hposix "prompts:p".toList
    have hkept := h _ _ _ _ result hcall (by rw [expand_of_calls hcall, hexpand]; rfl)
    exact clear_of_kept hposix hkept hresult
  · intro h text custom_prompts name rest result hcall hexpand
    rw [expand_of_calls hcall] at hexpand
    cases hprompt : expand_prompt shlex name rest content with
    | error error =>
      rw [hprompt] at hexpand
      cases hexpand
    | ok expanded =>
      rw [hprompt] at hexpand
      obtain rfl := Option.some.inj (Except.ok.inj hexpand)
      exact h.keeps hprompt

/-! ### Arguments that vanish -/

/-- The words that are complete, as `Shlex` yields them. -/
def small_shlex (rest : Text) : List Text :=
  shell.words_of (shell.lex (fun _ => false) .blank [] rest).1

theorem small_shlex_posix : ∀ t ws, shell.words t = some ws → small_shlex t = ws := by
  intro t ws h
  unfold shell.words at h
  unfold small_shlex
  split at h
  · next items heq =>
    rw [heq]
    exact Option.some.inj h
  · cases h

/-- The `$2` is escaped, and the prompt has a `$1` beside it. -/
def price : Text := "$1 for $$2".toList

theorem price_tokens : tokens 0 price = [.positional 0, .text ' ', .text 'f', .text 'o', .text 'r',
    .text ' ', .escape, .text '2'] := by
  decide

theorem price_keeps_arguments : KeepsArguments small_shlex [] price := by
  have hunnamed : ∀ name, .named name ∉ tokens 0 price := by
    intro name
    simp [price_tokens]
  refine (keeps_arguments_iff small_shlex_posix [] price).mpr ⟨?_, ?_, ?_⟩
  · rintro ⟨name, hname⟩
    exact absurd hname (hunnamed name)
  · rintro ⟨name, hpart⟩
    exact hunnamed name (hpart.subset (by simp))
  · intro _
    exact ⟨.positional 0, by simp [price_tokens], rfl⟩

/-- The only `$1` of the prompt is escaped: the arguments are in no text. -/
theorem escaped_loses_arguments :
    ¬ ∀ (shlex : Text → List Text) (builtins : List Text) (content : Text),
      (∀ t ws, shell.words t = some ws → shlex t = ws) →
      KeepsArguments shlex builtins content := by
  intro h
  have hkept := h small_shlex [] "costs $$1".toList small_shlex_posix
    "/prompts:p hello".toList [{ name := ['p'], content := "costs $$1".toList }]
    "prompts:p".toList "hello".toList "costs $$1".toList ⟨by decide, _, rfl, rfl⟩ (by decide)
  have happended := hkept.appended (by decide)
  revert happended
  decide

end Ecode.prompt_args
