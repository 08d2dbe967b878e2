-- The placeholders of a prompt: what its text is made of, read once from left to right, beside
-- what the scanners of the expansion make of it.
import Ecode.PromptArgs

namespace Ecode.prompt_args

open windows_safe_commands (split_once)

/-- A piece of a prompt. A doubled `$` is kept as it is and keeps what follows from being a
placeholder. -/
inductive Token where
  | text (c : Char)
  | escape
  | named (name : Text)
  | positional (idx : Nat)
  | arguments
  deriving DecidableEq

namespace Token

def is_numeric : Token → Bool
  | positional _ | arguments => true
  | _ => false

def is_placeholder : Token → Bool
  | named _ | positional _ | arguments => true
  | _ => false

end Token

/-- The pieces, from `skip` characters on. -/
def tokens : Nat → Text → List Token
  | _, [] => []
  | skip + 1, _ :: t => tokens skip t
  | 0, c :: t =>
    if c ≠ '$' then .text c :: tokens 0 t
    else if t.head? = some '$' then .escape :: tokens 1 t
    else
      match position_at t with
      | some idx => .positional idx :: tokens 1 t
      | none =>
        match name_at t with
        | some name =>
          (if name = ARGUMENTS then .arguments else .named name) :: tokens name.length t
        | none => .text '$' :: tokens 0 t

/-- What the last word `name=value` gives to a name. -/
def assigned (words : List Text) (name : Text) : Text :=
  ((words.reverse.findSome? fun word =>
    (split_once '=' word).filter fun input => input.1 = name).map Prod.snd).getD []

def Token.value (words : List Text) : Token → Text
  | text c => [c]
  | escape => "$$".toList
  | named name => assigned words name
  | positional idx => words.getD idx []
  | arguments => Text.join [' '] words

/-! ## Names -/

/-- A name, up to its end. -/
def IsName (name t : Text) : Prop := name_at (name ++ t) = some name

theorem isName_of_name_at {name t : Text} (h : name_at t = some name) :
    ∃ rest, t = name ++ rest ∧ IsName name rest := by
  unfold name_at at h
  split_ifs at h with hupper
  obtain rfl := Option.some.inj h
  refine ⟨t.dropWhile is_name_char, List.takeWhile_append_dropWhile.symm, ?_⟩
  unfold IsName name_at
  rw [List.takeWhile_append_dropWhile, if_pos hupper]

section name

variable {name t : Text}

theorem IsName.upper (h : IsName name t) : ∃ c cs, name = c :: cs ∧ is_upper c := by
  unfold IsName name_at at h
  split_ifs at h with hupper
  cases name with
  | nil =>
    cases t with
    | nil => simp at hupper
    | cons c t =>
      have hc : is_upper c := by simpa using hupper
      have hname := Option.some.inj h
      simp [is_name_char, hc] at hname
  | cons c cs => exact ⟨c, cs, rfl, by simpa using hupper⟩

theorem IsName.name_char (h : IsName name t) : ∀ c ∈ name, is_name_char c := by
  unfold IsName name_at at h
  split_ifs at h
  rw [← Option.some.inj h]
  intro c hc
  exact List.mem_takeWhile_imp hc

theorem ne_dollar_of_name_char {c : Char} (h : is_name_char c) : c ≠ '$' := by
  rintro rfl
  revert h
  decide

theorem ne_equals_of_name_char {c : Char} (h : is_name_char c) : c ≠ '=' := by
  rintro rfl
  revert h
  decide

theorem IsName.ne_dollar (h : IsName name t) : ∀ c ∈ name, c ≠ '$' :=
  fun c hc => ne_dollar_of_name_char (h.name_char c hc)

theorem not_digit_of_upper {c : Char} (h : is_upper c) : ¬ ('1' ≤ c ∧ c ≤ '9') := by
  rintro ⟨-, hle⟩
  have hA : 'A' ≤ c := by
    simp only [is_upper, Bool.and_eq_true, decide_eq_true_eq] at h
    exact h.1
  exact absurd (hA.trans hle) (by decide)

theorem IsName.head (h : IsName name t) : (name ++ t).head? ≠ some '$' := by
  obtain ⟨c, cs, rfl, hc⟩ := h.upper
  have hne := h.ne_dollar c List.mem_cons_self
  simpa using hne

theorem IsName.no_position (h : IsName name t) : position_at (name ++ t) = none := by
  obtain ⟨c, cs, rfl, hc⟩ := h.upper
  have hno := not_digit_of_upper hc
  simp only [not_and] at hno
  simpa [position_at] using hno

end name

theorem position_at_cons {t : Text} {idx : Nat} (h : position_at t = some idx) :
    ∃ d rest, t = d :: rest ∧ '1' ≤ d ∧ d ≤ '9' ∧ idx = d.toNat - '1'.toNat := by
  cases t with
  | nil => cases h
  | cons d rest =>
    unfold position_at at h
    obtain ⟨d', hd', rfl⟩ := Option.map_eq_some_iff.mp h
    obtain ⟨hhead, hdigit⟩ := Option.filter_eq_some_iff.mp hd'
    obtain rfl := Option.some.inj hhead
    have hboth : '1' ≤ d ∧ d ≤ '9' := by simpa using hdigit
    exact ⟨d, rest, rfl, hboth.1, hboth.2, rfl⟩

theorem position_head {t : Text} {idx : Nat} (h : position_at t = some idx) :
    t.head? ≠ some '$' := by
  obtain ⟨d, rest, rfl, hlow, -⟩ := position_at_cons h
  intro heq
  rw [Option.some.inj heq] at hlow
  exact absurd hlow (by decide)

theorem name_at_digit {c : Char} {t : Text} {idx : Nat} (h : position_at (c :: t) = some idx) :
    name_at (c :: t) = none := by
  obtain ⟨d, rest, heq, hlow, hhigh, -⟩ := position_at_cons h
  obtain ⟨rfl, rfl⟩ := List.cons.inj heq
  unfold name_at
  rw [if_neg]
  intro hupper
  have hc : is_upper c := by simpa using hupper
  exact not_digit_of_upper hc ⟨hlow, hhigh⟩

theorem digit_ne_dollar {c : Char} {t : Text} {idx : Nat}
    (h : position_at (c :: t) = some idx) : c ≠ '$' := by
  have hhead := position_head h
  simpa using hhead

theorem digit_ne_equals {c : Char} {t : Text} {idx : Nat}
    (h : position_at (c :: t) = some idx) : c ≠ '=' := by
  obtain ⟨d, rest, heq, -, hhigh, -⟩ := position_at_cons h
  obtain ⟨rfl, rfl⟩ := List.cons.inj heq
  rintro rfl
  exact absurd hhigh (by decide)

theorem position_lt {t : Text} {idx : Nat} (h : position_at t = some idx) : idx < 9 := by
  obtain ⟨d, rest, rfl, -, hhigh, rfl⟩ := position_at_cons h
  have hle : d.toNat ≤ '9'.toNat := hhigh
  have hone : '1'.toNat = 49 := rfl
  have hnine : '9'.toNat = 57 := rfl
  omega

/-! ## Reading a prompt piece by piece -/

/-- Induction over the pieces of a prompt. The flag tells whether a `$` stands before the text. -/
theorem scan_induction {motive : Bool → Text → Prop} (nil : ∀ d, motive d [])
    (text : ∀ d c t, c ≠ '$' → motive false t → motive d (c :: t))
    (escape : ∀ d t, name_at t = none → motive true t → motive d ('$' :: '$' :: t))
    (quoted : ∀ d name t, IsName name t → motive false t → motive d ('$' :: '$' :: (name ++ t)))
    (positional : ∀ d c t idx, position_at (c :: t) = some idx → motive false t →
      motive d ('$' :: c :: t))
    (name : ∀ d name t, IsName name t → motive false t → motive d ('$' :: (name ++ t)))
    (lone : ∀ d t, t.head? ≠ some '$' → position_at t = none → name_at t = none → motive true t →
      motive d ('$' :: t)) (d : Bool) (t : Text) : motive d t := by
  induction hlen : t.length using Nat.strong_induction_on generalizing d t with
  | _ n ih =>
    subst hlen
    have hshort : ∀ (d : Bool) (u : Text), u.length < t.length → motive d u :=
      fun d u hu => ih u.length hu d u rfl
    cases t with
    | nil => exact nil d
    | cons c t =>
      by_cases hc : c = '$'
      · subst hc
        by_cases hhead : t.head? = some '$'
        · obtain ⟨u, rfl⟩ : ∃ u, t = '$' :: u := by
            cases t with
            | nil => cases hhead
            | cons c u => exact ⟨u, by rw [Option.some.inj hhead]⟩
          cases hname : name_at u with
          | none => exact escape d u hname (hshort true u (by simp))
          | some n =>
            obtain ⟨rest, rfl, hn⟩ := isName_of_name_at hname
            have hlt : rest.length < ('$' :: '$' :: (n ++ rest)).length := by
              simp only [List.length_cons, List.length_append]
              omega
            exact quoted d n rest hn (hshort false rest hlt)
        · cases hposition : position_at t with
          | some idx =>
            obtain ⟨digit, rest, rfl, -⟩ := position_at_cons hposition
            exact positional d digit rest idx hposition (hshort false rest (by simp))
          | none =>
            cases hname : name_at t with
            | none => exact lone d t hhead hposition hname (hshort true t (by simp))
            | some n =>
              obtain ⟨rest, rfl, hn⟩ := isName_of_name_at hname
              have hlt : rest.length < ('$' :: (n ++ rest)).length := by
                simp only [List.length_cons, List.length_append]
                omega
              exact name d n rest hn (hshort false rest hlt)
      · exact text d c t hc (hshort false t (by simp))

/-! ## What each scanner makes of a piece -/

section scanners

variable {d : Bool} {c : Char} {t name : Text} {idx : Nat} {args : List Text}

theorem tokens_skip (skipped t : Text) : tokens skipped.length (skipped ++ t) = tokens 0 t := by
  induction skipped with
  | nil => rfl
  | cons c cs ih => exact ih

theorem expand_skip (skipped t : Text) :
    expand_from args skipped.length (skipped ++ t) = expand_from args 0 t := by
  induction skipped with
  | nil => rfl
  | cons c cs ih => exact ih

theorem segments_skip (hname : ∀ c ∈ name, c ≠ '$') (hsome : name ≠ []) (d : Bool) (t : Text) :
    segments d name.length (name ++ t) = segments false 0 t := by
  induction name generalizing d with
  | nil => exact absurd rfl hsome
  | cons c cs ih =>
    have hc : (c == '$') = false := beq_false_of_ne (hname c List.mem_cons_self)
    rw [List.length_cons, List.cons_append, segments, hc]
    cases cs with
    | nil => rfl
    | cons b bs => exact ih (fun x hx => hname x (List.mem_cons_of_mem c hx)) (by simp) false

theorem tokens_plain (hname : ∀ c ∈ name, c ≠ '$') (t : Text) :
    tokens 0 (name ++ t) = name.map .text ++ tokens 0 t := by
  induction name with
  | nil => rfl
  | cons c cs ih =>
    have hrest := ih fun x hx => hname x (List.mem_cons_of_mem c hx)
    rw [List.cons_append, tokens, if_pos (hname c List.mem_cons_self), hrest]
    rfl

theorem expand_plain (hname : ∀ c ∈ name, c ≠ '$') (t : Text) :
    expand_from args 0 (name ++ t) = name ++ expand_from args 0 t := by
  induction name with
  | nil => rfl
  | cons c cs ih =>
    have hrest := ih fun x hx => hname x (List.mem_cons_of_mem c hx)
    rw [List.cons_append, expand_from, if_pos (hname c List.mem_cons_self), hrest]
    rfl

theorem segments_text (hc : c ≠ '$') :
    segments d 0 (c :: t) = .plain c :: segments false 0 t := by
  rw [segments, if_neg hc, beq_false_of_ne hc]

theorem segments_dollar (h : name_at t = none) :
    segments d 0 ('$' :: t) = .plain '$' :: segments true 0 t := by
  rw [segments, if_pos rfl, h]
  rfl

theorem segments_name (h : IsName name t) :
    segments d 0 ('$' :: (name ++ t)) = .found d name :: segments false 0 t := by
  obtain ⟨c, cs, hname, -⟩ := h.upper
  have hsome : name ≠ [] := by simp [hname]
  rw [segments, if_pos rfl, show name_at (name ++ t) = some name from h]
  dsimp only
  rw [segments_skip h.ne_dollar hsome]

theorem tokens_text (hc : c ≠ '$') : tokens 0 (c :: t) = .text c :: tokens 0 t := by
  rw [tokens, if_pos hc]

theorem tokens_escape : tokens 0 ('$' :: '$' :: t) = .escape :: tokens 0 t := by
  have hhead : ('$' :: t).head? = some '$' := rfl
  rw [tokens, if_neg (by simp), if_pos hhead]
  rfl

theorem tokens_positional (h : position_at (c :: t) = some idx) :
    tokens 0 ('$' :: c :: t) = .positional idx :: tokens 0 t := by
  rw [tokens, if_neg (by simp), if_neg (position_head h), h]
  rfl

theorem tokens_name (h : IsName name t) : tokens 0 ('$' :: (name ++ t)) =
    (if name = ARGUMENTS then .arguments else .named name) :: tokens 0 t := by
  rw [tokens, if_neg (by simp), if_neg h.head, h.no_position,
    show name_at (name ++ t) = some name from h]
  dsimp only
  rw [tokens_skip]

theorem tokens_lone (hhead : t.head? ≠ some '$') (hposition : position_at t = none)
    (hname : name_at t = none) : tokens 0 ('$' :: t) = .text '$' :: tokens 0 t := by
  rw [tokens, if_neg (by simp), if_neg hhead, hposition, hname]

theorem expand_text (hc : c ≠ '$') : expand_from args 0 (c :: t) = c :: expand_from args 0 t := by
  rw [expand_from, if_pos hc]

theorem expand_escape :
    expand_from args 0 ('$' :: '$' :: t) = '$' :: '$' :: expand_from args 0 t := by
  have hhead : ('$' :: t).head? = some '$' := rfl
  rw [expand_from, if_neg (by simp), if_pos hhead]
  rfl

theorem expand_positional (h : position_at (c :: t) = some idx) :
    expand_from args 0 ('$' :: c :: t) = args.getD idx [] ++ expand_from args 0 t := by
  rw [expand_from, if_neg (by simp), if_neg (position_head h), h]
  rfl

theorem expand_arguments (h : IsName ARGUMENTS t) :
    expand_from args 0 ('$' :: (ARGUMENTS ++ t)) =
      Text.join [' '] args ++ expand_from args 0 t := by
  have hstarts : Text.starts_with (ARGUMENTS ++ t) ARGUMENTS = true := by
    simp [Text.starts_with]
  rw [expand_from, if_neg (by simp), if_neg h.head, h.no_position]
  dsimp only
  rw [if_pos hstarts, expand_skip]

/-- What starts with the letters of `ARGUMENTS` starts with a name. -/
theorem name_at_of_arguments (h : Text.starts_with t ARGUMENTS = true) : (name_at t).isSome := by
  obtain ⟨rest, rfl⟩ := List.isPrefixOf_iff_prefix.mp h
  rfl

theorem expand_lone (hhead : t.head? ≠ some '$') (hposition : position_at t = none)
    (hname : name_at t = none) : expand_from args 0 ('$' :: t) = '$' :: expand_from args 0 t := by
  have hstarts : Text.starts_with t ARGUMENTS ≠ true := by
    intro h
    have hsome := name_at_of_arguments h
    rw [hname] at hsome
    cases hsome
  rw [expand_from, if_neg (by simp), if_neg hhead, hposition]
  dsimp only
  rw [if_neg hstarts]

end scanners

end Ecode.prompt_args
