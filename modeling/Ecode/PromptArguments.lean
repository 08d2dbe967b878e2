-- Which prompts keep the user's arguments: the scanners of the expansion agree with the pieces of
-- the prompt as long as it is clear of three kinds of text.
import Ecode.PromptTokens

namespace Ecode.prompt_args

open windows_safe_commands (split_once)

/-! ## The named scanners -/

/-- A named placeholder stands right behind a doubled `$`; with the flag, also right behind what
was read before. -/
def Behind (after_escape : Bool) (ts : List Token) : Prop :=
  ∃ name, [.escape, .named name] <:+: if after_escape then .escape :: ts else ts

section behind

variable {ts : List Token} {token : Token} {name : Text}

theorem Behind.cons (h : Behind false ts) (d : Bool) (token : Token) : Behind d (token :: ts) := by
  obtain ⟨name, hname⟩ := h
  refine ⟨name, List.IsInfix.trans hname ?_⟩
  cases d with
  | false => exact (List.suffix_cons token ts).isInfix
  | true => exact ((List.suffix_cons token ts).trans (List.suffix_cons _ _)).isInfix

theorem Behind.append (h : Behind false ts) (before : List Token) :
    Behind false (before ++ ts) := by
  induction before with
  | nil => exact h
  | cons token before ih => exact ih.cons false token

theorem behind_named (name : Text) (ts : List Token) : Behind true (.named name :: ts) :=
  ⟨name, [], ts, rfl⟩

theorem behind_escape (d : Bool) (h : Behind true ts) : Behind d (.escape :: ts) := by
  obtain ⟨name, hname⟩ := h
  refine ⟨name, List.IsInfix.trans hname ?_⟩
  cases d with
  | false => exact List.infix_rfl
  | true => exact (List.suffix_cons _ _).isInfix

/-- A placeholder directly behind starts a text with `$`. -/
theorem Behind.of_lone {t : Text} (h : Behind true (tokens 0 t)) (hhead : t.head? ≠ some '$') :
    Behind false (tokens 0 t) := by
  obtain ⟨name, hname⟩ := h
  rcases List.infix_cons_iff.mp hname with hprefix | hinfix
  · exfalso
    have hfirst : (tokens 0 t).head? = some (.named name) := by
      obtain ⟨rest, hrest⟩ := hprefix
      obtain ⟨-, htail⟩ := List.cons.inj hrest
      rw [← htail]
      rfl
    cases t with
    | nil => cases hfirst
    | cons c t =>
      have hc : c ≠ '$' := fun he => hhead (by rw [he]; rfl)
      rw [tokens_text hc] at hfirst
      cases hfirst
  · exact ⟨name, hinfix⟩

end behind

/-- Every match that is taken for a placeholder is one. -/
theorem named_of_found {d : Bool} {t : Text} {name : Text} (hname : name ≠ ARGUMENTS)
    (h : .found false name ∈ segments d 0 t) : .named name ∈ tokens 0 t := by
  induction d, t using scan_induction with
  | nil d => cases h
  | text d c t hc ih =>
    rw [segments_text hc] at h
    rw [tokens_text hc]
    exact List.mem_cons_of_mem _ (ih (by simpa using h))
  | escape d t hno ih =>
    rw [segments_dollar rfl, segments_dollar hno] at h
    rw [tokens_escape]
    exact List.mem_cons_of_mem _ (ih (by simpa using h))
  | quoted d n t hn ih =>
    rw [segments_dollar rfl, segments_name hn] at h
    rw [tokens_escape, tokens_plain hn.ne_dollar]
    have hrest := ih (by simpa using h)
    exact List.mem_cons_of_mem _ (List.mem_append_right _ hrest)
  | positional d c t idx hidx ih =>
    rw [segments_dollar (name_at_digit hidx), segments_text (digit_ne_dollar hidx)] at h
    rw [tokens_positional hidx]
    exact List.mem_cons_of_mem _ (ih (by simpa using h))
  | name d n t hn ih =>
    rw [segments_name hn, List.mem_cons] at h
    rw [tokens_name hn]
    rcases h with heq | hrest
    · obtain ⟨-, rfl⟩ := Segment.found.inj heq
      rw [if_neg hname]
      exact List.mem_cons_self
    · exact List.mem_cons_of_mem _ (ih hrest)
  | lone d t hhead hposition hno ih =>
    rw [segments_dollar hno] at h
    rw [tokens_lone hhead hposition hno]
    exact List.mem_cons_of_mem _ (ih (by simpa using h))

/-- Every named placeholder is found if none stands right behind a doubled `$`. -/
theorem found_of_named {d : Bool} {t : Text} {name : Text} (hclear : ¬ Behind d (tokens 0 t))
    (h : .named name ∈ tokens 0 t) : .found false name ∈ segments d 0 t ∧ name ≠ ARGUMENTS := by
  induction d, t using scan_induction with
  | nil d => cases h
  | text d c t hc ih =>
    rw [tokens_text hc] at h hclear
    obtain ⟨hfound, hne⟩ := ih (fun hb => hclear (hb.cons d _)) (by simpa using h)
    rw [segments_text hc]
    exact ⟨List.mem_cons_of_mem _ hfound, hne⟩
  | escape d t hno ih =>
    rw [tokens_escape] at h hclear
    obtain ⟨hfound, hne⟩ := ih (fun hb => hclear (behind_escape d hb)) (by simpa using h)
    rw [segments_dollar rfl, segments_dollar hno]
    exact ⟨List.mem_cons_of_mem _ (List.mem_cons_of_mem _ hfound), hne⟩
  | quoted d n t hn ih =>
    rw [tokens_escape, tokens_plain hn.ne_dollar] at h hclear
    obtain ⟨hfound, hne⟩ := ih (fun hb => hclear ((hb.append _).cons d _)) (by simpa using h)
    rw [segments_dollar rfl, segments_name hn]
    exact ⟨List.mem_cons_of_mem _ (List.mem_cons_of_mem _ hfound), hne⟩
  | positional d c t idx hidx ih =>
    rw [tokens_positional hidx] at h hclear
    obtain ⟨hfound, hne⟩ := ih (fun hb => hclear (hb.cons d _)) (by simpa using h)
    rw [segments_dollar (name_at_digit hidx), segments_text (digit_ne_dollar hidx)]
    exact ⟨List.mem_cons_of_mem _ (List.mem_cons_of_mem _ hfound), hne⟩
  | name d n t hn ih =>
    rw [tokens_name hn] at h hclear
    rw [segments_name hn]
    by_cases harguments : n = ARGUMENTS
    · rw [if_pos harguments] at h hclear
      obtain ⟨hfound, hne⟩ := ih (fun hb => hclear (hb.cons d _)) (by simpa using h)
      exact ⟨List.mem_cons_of_mem _ hfound, hne⟩
    · rw [if_neg harguments, List.mem_cons] at h
      rw [if_neg harguments] at hclear
      have hd : d = false := by
        cases d with
        | false => rfl
        | true => exact absurd (behind_named n _) hclear
      subst hd
      rcases h with heq | hrest
      · obtain rfl := Token.named.inj heq
        exact ⟨List.mem_cons_self, harguments⟩
      · obtain ⟨hfound, hne⟩ := ih (fun hb => hclear (hb.cons false _)) hrest
        exact ⟨List.mem_cons_of_mem _ hfound, hne⟩
  | lone d t hhead hposition hno ih =>
    rw [tokens_lone hhead hposition hno] at h hclear
    obtain ⟨hfound, hne⟩ := ih (fun hb => hclear ((hb.of_lone hhead).cons d _)) (by simpa using h)
    rw [segments_dollar hno]
    exact ⟨List.mem_cons_of_mem _ hfound, hne⟩

theorem flatMap_texts (words : List Text) (name : Text) :
    (name.map Token.text).flatMap (Token.value words) = name := by
  rw [List.flatMap_map]
  exact List.flatMap_singleton' name

/-- The named expansion puts the value in the place of each placeholder and leaves all else. -/
theorem replace_all_eq {d : Bool} {t : Text} {inputs : List (Text × Text)} {words : List Text}
    (hclear : ¬ Behind d (tokens 0 t)) (hnumeric : ∀ p ∈ tokens 0 t, p.is_numeric = false)
    (hvalue : ∀ name, .named name ∈ tokens 0 t →
      replacement inputs (.found false name) = assigned words name) :
    (segments d 0 t).flatMap (replacement inputs) =
      (tokens 0 t).flatMap (Token.value words) := by
  induction d, t using scan_induction with
  | nil d => rfl
  | text d c t hc ih =>
    rw [tokens_text hc] at hclear hnumeric hvalue ⊢
    rw [segments_text hc, List.flatMap_cons, List.flatMap_cons,
      ih (fun hb => hclear (hb.cons d _)) (fun p hp => hnumeric p (List.mem_cons_of_mem _ hp))
        fun n hn => hvalue n (List.mem_cons_of_mem _ hn)]
    rfl
  | escape d t hno ih =>
    rw [tokens_escape] at hclear hnumeric hvalue ⊢
    rw [segments_dollar rfl, segments_dollar hno, List.flatMap_cons, List.flatMap_cons,
      List.flatMap_cons, ih (fun hb => hclear (behind_escape d hb))
        (fun p hp => hnumeric p (List.mem_cons_of_mem _ hp))
        fun n hn => hvalue n (List.mem_cons_of_mem _ hn)]
    rfl
  | quoted d n t hn ih =>
    rw [tokens_escape, tokens_plain hn.ne_dollar] at hclear hnumeric hvalue ⊢
    have hin : ∀ p ∈ tokens 0 t, p ∈ Token.escape :: (n.map Token.text ++ tokens 0 t) :=
      fun p hp => List.mem_cons_of_mem _ (List.mem_append_right _ hp)
    rw [segments_dollar rfl, segments_name hn, List.flatMap_cons, List.flatMap_cons,
      List.flatMap_cons, List.flatMap_append, flatMap_texts,
      ih (fun hb => hclear ((hb.append _).cons d _)) (fun p hp => hnumeric p (hin p hp))
        fun m hm => hvalue m (hin _ hm)]
    rfl
  | positional d c t idx hidx ih =>
    rw [tokens_positional hidx] at hnumeric
    exact absurd (hnumeric _ List.mem_cons_self) (by simp [Token.is_numeric])
  | name d n t hn ih =>
    rw [tokens_name hn] at hclear hnumeric hvalue ⊢
    have hname : n ≠ ARGUMENTS := by
      intro heq
      rw [if_pos heq] at hnumeric
      exact absurd (hnumeric _ List.mem_cons_self) (by simp [Token.is_numeric])
    rw [if_neg hname] at hclear hnumeric hvalue ⊢
    have hd : d = false := by
      cases d with
      | false => rfl
      | true => exact absurd (behind_named n _) hclear
    subst hd
    rw [segments_name hn, List.flatMap_cons, List.flatMap_cons, hvalue n List.mem_cons_self,
      ih (fun hb => hclear (hb.cons false _))
        (fun p hp => hnumeric p (List.mem_cons_of_mem _ hp))
        fun m hm => hvalue m (List.mem_cons_of_mem _ hm)]
    rfl
  | lone d t hhead hposition hno ih =>
    rw [tokens_lone hhead hposition hno] at hclear hnumeric hvalue ⊢
    rw [segments_dollar hno, List.flatMap_cons, List.flatMap_cons,
      ih (fun hb => hclear ((hb.of_lone hhead).cons d _))
        (fun p hp => hnumeric p (List.mem_cons_of_mem _ hp))
        fun n hn => hvalue n (List.mem_cons_of_mem _ hn)]
    rfl

/-! ## The numeric scanners -/

/-- The numeric expansion does the same in a prompt without named placeholders. -/
theorem expand_from_eq {t : Text} {args : List Text} (h : ∀ name, .named name ∉ tokens 0 t) :
    expand_from args 0 t = (tokens 0 t).flatMap (Token.value args) := by
  have d := false
  induction d, t using scan_induction with
  | nil d => rfl
  | text d c t hc ih =>
    rw [tokens_text hc] at h ⊢
    rw [expand_text hc, List.flatMap_cons, ih fun n hn => h n (List.mem_cons_of_mem _ hn)]
    rfl
  | escape d t hno ih =>
    rw [tokens_escape] at h ⊢
    rw [expand_escape, List.flatMap_cons, ih fun n hn => h n (List.mem_cons_of_mem _ hn)]
    rfl
  | quoted d n t hn ih =>
    rw [tokens_escape, tokens_plain hn.ne_dollar] at h ⊢
    have hrest : ∀ name, .named name ∉ tokens 0 t :=
      fun m hm => h m (List.mem_cons_of_mem _ (List.mem_append_right _ hm))
    rw [expand_escape, expand_plain hn.ne_dollar, List.flatMap_cons, List.flatMap_append,
      flatMap_texts, ih hrest]
    rfl
  | positional d c t idx hidx ih =>
    rw [tokens_positional hidx] at h ⊢
    rw [expand_positional hidx, List.flatMap_cons,
      ih fun n hn => h n (List.mem_cons_of_mem _ hn)]
    rfl
  | name d n t hn ih =>
    rw [tokens_name hn] at h ⊢
    by_cases hname : n = ARGUMENTS
    · subst hname
      rw [if_pos rfl] at h ⊢
      rw [expand_arguments hn, List.flatMap_cons,
        ih fun n hn => h n (List.mem_cons_of_mem _ hn)]
      rfl
    · rw [if_neg hname] at h
      exact absurd List.mem_cons_self (h n)
  | lone d t hhead hposition hno ih =>
    rw [tokens_lone hhead hposition hno] at h ⊢
    rw [expand_lone hhead hposition hno, List.flatMap_cons,
      ih fun n hn => h n (List.mem_cons_of_mem _ hn)]
    rfl

/-- A `$` stands directly before a digit from 1 to 9 or before the letters `ARGUMENTS`. -/
def LooksNumeric (content : Text) : Prop :=
  ∃ before after, content = before ++ '$' :: after ∧
    ((position_at after).isSome ∨ ARGUMENTS <+: after)

theorem has_position_iff (t : Text) : has_position t = true ↔
    ∃ before after, t = before ++ '$' :: after ∧ (position_at after).isSome := by
  induction t with
  | nil => simp [has_position]
  | cons c t ih =>
    unfold has_position
    rw [Bool.or_eq_true, Bool.and_eq_true, beq_iff_eq, ih]
    constructor
    · rintro (⟨rfl, hpos⟩ | ⟨before, after, rfl, hpos⟩)
      · exact ⟨[], t, rfl, hpos⟩
      · exact ⟨c :: before, after, rfl, hpos⟩
    · rintro ⟨before, after, heq, hpos⟩
      cases before with
      | nil =>
        obtain ⟨rfl, rfl⟩ := List.cons.inj heq
        exact .inl ⟨rfl, hpos⟩
      | cons b before =>
        obtain ⟨-, rfl⟩ := List.cons.inj heq
        exact .inr ⟨before, after, rfl, hpos⟩

theorem prompt_has_numeric_iff (t : Text) :
    prompt_has_numeric_placeholders t = true ↔ LooksNumeric t := by
  have hcontains : Text.contains t ('$' :: ARGUMENTS) = true ↔
      ∃ before after, t = before ++ '$' :: after ∧ ARGUMENTS <+: after := by
    unfold Text.contains
    rw [List.any_eq_true]
    constructor
    · rintro ⟨tail, htail, hprefix⟩
      obtain ⟨before, rfl⟩ := (List.mem_tails _ _).mp htail
      obtain ⟨rest, rfl⟩ := List.isPrefixOf_iff_prefix.mp hprefix
      exact ⟨before, ARGUMENTS ++ rest, rfl, List.prefix_append _ _⟩
    · rintro ⟨before, after, rfl, rest, rfl⟩
      exact ⟨_, (List.mem_tails _ _).mpr (List.suffix_append _ _),
        List.isPrefixOf_iff_prefix.mpr ⟨rest, rfl⟩⟩
  unfold prompt_has_numeric_placeholders LooksNumeric
  simp only [and_or_left, exists_or]
  rw [← hcontains, ← has_position_iff]
  cases Text.contains t ('$' :: ARGUMENTS) <;> simp

theorem LooksNumeric.append {t : Text} (h : LooksNumeric t) (before : Text) :
    LooksNumeric (before ++ t) := by
  obtain ⟨earlier, after, rfl, hlooks⟩ := h
  exact ⟨before ++ earlier, after, (List.append_assoc _ _ _).symm, hlooks⟩

/-- A numeric placeholder is seen. -/
theorem looks_of_numeric {t : Text} {p : Token} (hp : p ∈ tokens 0 t)
    (hnumeric : p.is_numeric = true) : LooksNumeric t := by
  have d := false
  induction d, t using scan_induction with
  | nil d => cases hp
  | text d c t hc ih =>
    rw [tokens_text hc] at hp
    rcases List.mem_cons.mp hp with rfl | hp
    · cases hnumeric
    · exact (ih hp).append [c]
  | escape d t hno ih =>
    rw [tokens_escape] at hp
    rcases List.mem_cons.mp hp with rfl | hp
    · cases hnumeric
    · exact (ih hp).append ['$', '$']
  | quoted d n t hn ih =>
    rw [tokens_escape, tokens_plain hn.ne_dollar, List.mem_cons, List.mem_append,
      List.mem_map] at hp
    rcases hp with rfl | ⟨c, -, rfl⟩ | hp
    · cases hnumeric
    · cases hnumeric
    · exact ((ih hp).append n).append ['$', '$']
  | positional d c t idx hidx ih => exact ⟨[], c :: t, rfl, .inl (by rw [hidx]; rfl)⟩
  | name d n t hn ih =>
    rw [tokens_name hn] at hp
    by_cases hname : n = ARGUMENTS
    · exact ⟨[], n ++ t, rfl, .inr (hname ▸ List.prefix_append _ _)⟩
    · rw [if_neg hname] at hp
      rcases List.mem_cons.mp hp with rfl | hp
      · cases hnumeric
      · exact (ih hp).append ('$' :: n)
  | lone d t hhead hposition hno ih =>
    rw [tokens_lone hhead hposition hno] at hp
    rcases List.mem_cons.mp hp with rfl | hp
    · cases hnumeric
    · exact (ih hp).append ['$']

/-! ## What keeps the arguments -/

/-- What a prompt's expansion is to be. -/
structure Kept (shlex : Text → List Text) (content rest result : Text) : Prop where
  replaced : (∃ p ∈ tokens 0 content, p.is_placeholder) →
    result = (tokens 0 content).flatMap (Token.value (shlex rest))
  unchanged : (∀ p ∈ tokens 0 content, p.is_placeholder = false) →
    content <+: result ∧ (Text.trim rest = [] → result = content)
  appended : (∀ p ∈ tokens 0 content, p.is_placeholder = false) → Text.trim rest <:+: result
  names : ∀ name, name ∈ prompt_argument_names content ↔ .named name ∈ tokens 0 content
  numeric : prompt_has_numeric_placeholders content = true ↔
    ∃ p ∈ tokens 0 content, p.is_numeric

/-- Named placeholders stand alone and not right behind a doubled `$`, and what looks like a
numeric placeholder stands beside one. -/
structure Clear (content : Text) : Prop where
  one_kind : (∃ name, .named name ∈ tokens 0 content) →
    ∀ p ∈ tokens 0 content, p.is_numeric = false
  not_behind : ¬ Behind false (tokens 0 content)
  numeric : LooksNumeric content → ∃ p ∈ tokens 0 content, p.is_numeric

/-- The text is a command for a prompt with this content. -/
def Calls (builtins : List Text) (text : Text) (custom_prompts : List CustomPrompt)
    (name rest content : Text) : Prop :=
  parse_slash_name text = some (name, rest) ∧
    ∃ prompt, find_prompt builtins name custom_prompts = some prompt ∧ prompt.content = content

/-- Whatever the arguments are, an expansion that succeeds keeps them. -/
def KeepsArguments (shlex : Text → List Text) (builtins : List Text) (content : Text) : Prop :=
  ∀ text custom_prompts name rest result, Calls builtins text custom_prompts name rest content →
    expand_custom_prompt shlex builtins text custom_prompts = .ok (some result) →
    Kept shlex content rest result

theorem expand_of_calls {shlex : Text → List Text} {builtins : List Text} {text : Text}
    {custom_prompts : List CustomPrompt} {name rest content : Text}
    (h : Calls builtins text custom_prompts name rest content) :
    expand_custom_prompt shlex builtins text custom_prompts =
      (expand_prompt shlex name rest content).map some := by
  obtain ⟨hparse, prompt, hfind, rfl⟩ := h
  unfold expand_custom_prompt
  rw [hparse]
  dsimp only
  rw [hfind]

theorem mem_prompt_argument_names {content name : Text} :
    name ∈ prompt_argument_names content ↔
      .found false name ∈ segments false 0 content ∧ name ≠ ARGUMENTS := by
  have hloop : ∀ (ms : List (Bool × Text)) (names : List Text),
      name ∈ ms.foldl (fun names m => if m.1 || m.2 == ARGUMENTS then names
        else if m.2 ∈ names then names else names ++ [m.2]) names ↔
      name ∈ names ∨ (false, name) ∈ ms ∧ name ≠ ARGUMENTS := by
    intro ms
    induction ms with
    | nil => simp
    | cons m ms ih =>
      intro names
      obtain ⟨after_dollar, other⟩ := m
      rw [List.foldl_cons, ih, List.mem_cons]
      dsimp only
      split_ifs with hskip hseen
      · have hnot : name ≠ ARGUMENTS → (false, name) ≠ (after_dollar, other) := by
          rintro hne heq
          obtain ⟨rfl, rfl⟩ := Prod.mk.inj heq
          simp [hne] at hskip
        tauto
      · have hin : (false, name) = (after_dollar, other) → name ∈ names := by
          intro heq
          rw [(Prod.mk.inj heq).2]
          exact hseen
        tauto
      · simp only [Bool.or_eq_true, beq_iff_eq, not_or, Bool.not_eq_true] at hskip
        obtain ⟨rfl, hother⟩ := hskip
        simp only [List.mem_append, List.mem_singleton, Prod.mk.injEq, true_and]
        have hne : name = other → name ≠ ARGUMENTS := fun heq => heq ▸ hother
        tauto
  unfold prompt_argument_names
  rw [hloop]
  have hfind : (false, name) ∈ find_iter content ↔
      .found false name ∈ segments false 0 content := by
    unfold find_iter
    rw [List.mem_filterMap]
    constructor
    · rintro ⟨segment, hsegment, heq⟩
      cases segment with
      | plain c => cases heq
      | found after_dollar other =>
        obtain ⟨rfl, rfl⟩ := Prod.mk.inj (Option.some.inj heq)
        exact hsegment
    · intro h
      exact ⟨_, h, rfl⟩
  rw [hfind]
  simp

/-- The parsed inputs are what the words assign. -/
theorem get_parse_tokens {words : List Text} {map inputs : List (Text × Text)}
    (h : parse_tokens map words = .ok inputs) (name : Text) :
    keyed.get Prod.fst inputs name =
      (words.reverse.findSome? fun word =>
        (split_once '=' word).filter fun input => input.1 = name).or
          (keyed.get Prod.fst map name) := by
  induction words generalizing map with
  | nil =>
    obtain rfl := Except.ok.inj h
    rfl
  | cons token words ih =>
    unfold parse_tokens at h
    cases hsplit : split_once '=' token with
    | none =>
      rw [hsplit] at h
      cases h
    | some input =>
      obtain ⟨key, value⟩ := input
      rw [hsplit] at h
      dsimp only at h
      split_ifs at h
      rw [ih h, keyed.get_insert, List.reverse_cons, List.findSome?_append, Option.or_assoc]
      congr 1
      by_cases hkey : key = name
      · simp [hsplit, hkey, Option.filter]
      · simp [hsplit, hkey, Ne.symm hkey, Option.filter]

theorem value_of_input {words : List Text} {inputs : List (Text × Text)}
    (h : parse_tokens [] words = .ok inputs) {name : Text} {input : Text × Text}
    (hget : keyed.get Prod.fst inputs name = some input) : input.2 = assigned words name := by
  rw [get_parse_tokens h] at hget
  have hnone : keyed.get Prod.fst ([] : List (Text × Text)) name = none := rfl
  rw [hnone, Option.or_none] at hget
  unfold assigned
  rw [hget]
  rfl

/-! ## A clear prompt keeps its arguments -/

section clear

variable {shlex : Text → List Text} {name rest content result : Text}

theorem Clear.names (h : Clear content) (name : Text) :
    name ∈ prompt_argument_names content ↔ .named name ∈ tokens 0 content := by
  rw [mem_prompt_argument_names]
  constructor
  · rintro ⟨hfound, hne⟩
    exact named_of_found hne hfound
  · exact found_of_named h.not_behind

theorem Clear.has_numeric (h : Clear content) :
    prompt_has_numeric_placeholders content = true ↔ ∃ p ∈ tokens 0 content, p.is_numeric := by
  rw [prompt_has_numeric_iff]
  exact ⟨h.numeric, fun ⟨p, hp, hnumeric⟩ => looks_of_numeric hp hnumeric⟩

theorem placeholder_cases {p : Token} (h : p.is_placeholder = true) :
    p.is_numeric = true ∨ ∃ name, p = .named name := by
  cases p with
  | named name => exact .inr ⟨name, rfl⟩
  | positional idx => exact .inl rfl
  | arguments => exact .inl rfl
  | text c => cases h
  | escape => cases h

theorem placeholder_of_numeric {p : Token} (h : p.is_numeric = true) : p.is_placeholder = true := by
  cases p <;> first | rfl | cases h

/-- How an expansion succeeds. -/
inductive Expanded (shlex : Text → List Text) (rest content result : Text) : Prop
  | named (inputs : List (Text × Text)) (hsome : prompt_argument_names content ≠ [])
      (hinputs : parse_tokens [] (shlex rest) = .ok inputs)
      (hall : ∀ k ∈ prompt_argument_names content, (keyed.get Prod.fst inputs k).isSome)
      (hresult : result = replace_all inputs content)
  | numeric (hnone : prompt_argument_names content = [])
      (hnumeric : prompt_has_numeric_placeholders content = true)
      (hresult : result = expand_numeric_placeholders content (shlex rest))
  | appended (hnone : prompt_argument_names content = [])
      (hnumeric : prompt_has_numeric_placeholders content = false) (separator : Text)
      (hresult : result = content ++ separator ++ Text.trim rest)
      (hblank : Text.trim rest = [] → separator = [])

theorem expand_cases (h : expand_prompt shlex name rest content = .ok result) :
    Expanded shlex rest content result := by
  unfold expand_prompt at h
  dsimp only at h
  by_cases hrequired : prompt_argument_names content = []
  · rw [hrequired] at h
    by_cases hnumeric : prompt_has_numeric_placeholders content = true
    · rw [if_neg (by simp), if_pos hnumeric] at h
      exact .numeric hrequired hnumeric (Except.ok.inj h).symm
    · rw [if_neg (by simp), if_neg hnumeric] at h
      have hno : prompt_has_numeric_placeholders content = false := by simpa using hnumeric
      by_cases hblank : Text.trim rest = []
      · rw [hblank, if_neg (by simp)] at h
        refine .appended hrequired hno [] ?_ fun _ => rfl
        rw [hblank, List.append_nil, List.append_nil]
        exact (Except.ok.inj h).symm
      · rw [if_pos (by simp [hblank])] at h
        refine .appended hrequired hno
          (if Text.ends_with content ['\n'] then [] else ['\n']) ?_ fun hnil => absurd hnil hblank
        rw [← Except.ok.inj h]
        split_ifs <;> simp
  · rw [if_pos (by simp [hrequired])] at h
    cases hinputs : parse_prompt_inputs shlex rest with
    | error error =>
      rw [hinputs] at h
      cases h
    | ok inputs =>
      rw [hinputs] at h
      dsimp only at h
      split_ifs at h with hmissing
      have hall : ∀ k ∈ prompt_argument_names content, (keyed.get Prod.fst inputs k).isSome := by
        simpa [Option.isSome_iff_ne_none] using hmissing
      unfold parse_prompt_inputs at hinputs
      split_ifs at hinputs with hblank
      · -- A blank rest gives no input, and one is required.
        obtain ⟨k, hk⟩ := List.exists_mem_of_ne_nil _ hrequired
        have hsome := hall k hk
        rw [← Except.ok.inj hinputs] at hsome
        cases hsome
      · exact .named inputs hrequired hinputs hall (Except.ok.inj h).symm

theorem Clear.keeps (h : Clear content)
    (hexpand : expand_prompt shlex name rest content = .ok result) :
    Kept shlex content rest result := by
  have hnone : prompt_argument_names content = [] → ∀ name, .named name ∉ tokens 0 content := by
    intro hnil name hin
    rw [← h.names, hnil] at hin
    cases hin
  have hfree : prompt_has_numeric_placeholders content = false →
      ∀ p ∈ tokens 0 content, p.is_numeric = false := by
    intro hno p hp
    by_contra hp'
    have hsome := h.has_numeric.mpr ⟨p, hp, by simpa using hp'⟩
    rw [hno] at hsome
    cases hsome
  cases expand_cases hexpand with
  | named inputs hsome hinputs hall hresult =>
    obtain ⟨n, hn⟩ := List.exists_mem_of_ne_nil _ hsome
    have hnamed := (h.names n).mp hn
    have hvalue : ∀ name, .named name ∈ tokens 0 content →
        replacement inputs (.found false name) = assigned (shlex rest) name := by
      intro name hin
      obtain ⟨input, hget⟩ := Option.isSome_iff_exists.mp (hall name ((h.names name).mpr hin))
      unfold replacement
      dsimp only
      rw [hget, ← value_of_input hinputs hget]
      rfl
    have hplaceholder : ¬ ∀ p ∈ tokens 0 content, p.is_placeholder = false := by
      intro hno
      cases hno _ hnamed
    refine ⟨fun _ => ?_, fun hno => absurd hno hplaceholder, fun hno => absurd hno hplaceholder,
      h.names, h.has_numeric⟩
    rw [hresult]
    exact replace_all_eq h.not_behind (h.one_kind ⟨n, hnamed⟩) hvalue
  | numeric hnil hnumeric hresult =>
    obtain ⟨p, hp, hpn⟩ := h.has_numeric.mp hnumeric
    have hplaceholder : ¬ ∀ p ∈ tokens 0 content, p.is_placeholder = false := by
      intro hno
      have hpno := hno p hp
      rw [placeholder_of_numeric hpn] at hpno
      cases hpno
    refine ⟨fun _ => ?_, fun hno => absurd hno hplaceholder, fun hno => absurd hno hplaceholder,
      h.names, h.has_numeric⟩
    rw [hresult]
    exact expand_from_eq (hnone hnil)
  | appended hnil hno separator hresult hblank =>
    refine ⟨?_, fun _ => ⟨?_, fun hrest => ?_⟩, fun _ => ?_, h.names, h.has_numeric⟩
    · rintro ⟨p, hp, hplaceholder⟩
      rcases placeholder_cases hplaceholder with hnumeric | ⟨name, rfl⟩
      · rw [hfree hno p hp] at hnumeric
        cases hnumeric
      · exact absurd hp (hnone hnil name)
    · rw [hresult, List.append_assoc]
      exact List.prefix_append _ _
    · rw [hresult, hrest, hblank hrest, List.append_nil, List.append_nil]
    · rw [hresult]
      exact (List.suffix_append _ _).isInfix

end clear

end Ecode.prompt_args
