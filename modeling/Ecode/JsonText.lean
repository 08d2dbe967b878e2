-- The text of a map of strings is read in one way only: the escapes of characters, quoted
-- strings, and the entries one after another.
import Ecode.Json

namespace Ecode.json

/-! ## Codes of which none begins another -/

section codes

variable {α β : Type}

/-- Whatever follows, a code tells what it stands for. -/
def SelfDelimiting (code : α → List β) : Prop :=
  ∀ a b r s, code a ++ r = code b ++ s → a = b

variable {code : α → List β}

theorem SelfDelimiting.cancel (h : SelfDelimiting code) {a b : α} {r s : List β}
    (heq : code a ++ r = code b ++ s) : a = b ∧ r = s := by
  have hab := h a b r s heq
  subst hab
  exact ⟨rfl, List.append_cancel_left heq⟩

/-- What is decoded again was encoded in one way. -/
theorem SelfDelimiting.of_decode {decode : List β → Option α}
    (h : ∀ a r, decode (code a ++ r) = some a) : SelfDelimiting code := by
  intro a b r s heq
  have hdecoded := congrArg decode heq
  rw [h, h] at hdecoded
  exact Option.some.inj hdecoded

/-- A row of codes up to a mark that begins none of them. -/
theorem SelfDelimiting.flatMap_cancel (h : SelfDelimiting code) {stop : β}
    (hstop : ∀ a r s, code a ++ r ≠ stop :: s) {as bs : List α} {r s : List β}
    (heq : as.flatMap code ++ stop :: r = bs.flatMap code ++ stop :: s) : as = bs ∧ r = s := by
  induction as generalizing bs with
  | nil =>
    cases bs with
    | nil => exact ⟨rfl, (List.cons.inj heq).2⟩
    | cons b bs =>
      rw [List.flatMap_cons, List.append_assoc] at heq
      exact absurd heq.symm (hstop b _ _)
  | cons a as ih =>
    cases bs with
    | nil =>
      rw [List.flatMap_cons, List.append_assoc] at heq
      exact absurd heq (hstop a _ _)
    | cons b bs =>
      rw [List.flatMap_cons, List.flatMap_cons, List.append_assoc, List.append_assoc] at heq
      obtain ⟨rfl, hrest⟩ := h.cancel heq
      obtain ⟨rfl, htail⟩ := ih hrest
      exact ⟨rfl, htail⟩

end codes

theorem join_cons_cons_append (sep t u : Text) (ts : List Text) (r : Text) :
    Text.join sep (t :: u :: ts) ++ r = t ++ (sep ++ (Text.join sep (u :: ts) ++ r)) := by
  simp only [Text.join, List.append_assoc]

/-- Codes with a separator between them, up to a mark. -/
theorem SelfDelimiting.join_cancel {α : Type} {code : α → Text} (h : SelfDelimiting code)
    {sep stop : Char} (hne : sep ≠ stop) (hstop : ∀ a r s, code a ++ r ≠ stop :: s)
    {as bs : List α} {r s : Text}
    (heq : Text.join [sep] (as.map code) ++ stop :: r =
      Text.join [sep] (bs.map code) ++ stop :: s) : as = bs := by
  -- after its first code a list goes on with the mark, or with the separator
  have hfirst : ∀ (a : α) (as : List α) (r : Text), ∃ t,
      Text.join [sep] ((a :: as).map code) ++ r = code a ++ t := by
    intro a as r
    cases as with
    | nil => exact ⟨r, rfl⟩
    | cons a' as => exact ⟨_, join_cons_cons_append [sep] (code a) (code a') (as.map code) r⟩
  induction as generalizing bs with
  | nil =>
    cases bs with
    | nil => rfl
    | cons b bs =>
      obtain ⟨t, ht⟩ := hfirst b bs (stop :: s)
      rw [ht] at heq
      exact absurd heq.symm (hstop b t _)
  | cons a as ih =>
    cases bs with
    | nil =>
      obtain ⟨t, ht⟩ := hfirst a as (stop :: r)
      rw [ht] at heq
      exact absurd heq (hstop a t _)
    | cons b bs =>
      cases as with
      | nil =>
        cases bs with
        | nil =>
          obtain ⟨rfl, -⟩ := h.cancel heq
          rfl
        | cons b' bs =>
          rw [List.map_cons, List.map_cons, List.map_cons, join_cons_cons_append] at heq
          exact absurd (List.cons.inj (h.cancel heq).2).1.symm hne
      | cons a' as =>
        cases bs with
        | nil =>
          rw [List.map_cons, List.map_cons, List.map_cons, join_cons_cons_append] at heq
          exact absurd (List.cons.inj (h.cancel heq).2).1 hne
        | cons b' bs =>
          rw [List.map_cons, List.map_cons, List.map_cons, List.map_cons, join_cons_cons_append,
            join_cons_cons_append] at heq
          obtain ⟨rfl, hrest⟩ := h.cancel heq
          have htail : a' :: as = b' :: bs := ih (List.cons.inj hrest).2
          rw [htail]

/-! ## Quoted strings -/

def hex_value (c : Char) : Nat := if c.isDigit then c.toNat - 48 else c.toNat - 87

/-- The character that an escape at the beginning of a text stands for. -/
def unescape : Text → Option Char
  | '\\' :: 'b' :: _ => some (Char.ofNat 8)
  | '\\' :: 'f' :: _ => some (Char.ofNat 12)
  | '\\' :: 'n' :: _ => some '\n'
  | '\\' :: 'r' :: _ => some '\r'
  | '\\' :: 't' :: _ => some '\t'
  | '\\' :: 'u' :: '0' :: '0' :: h :: l :: _ => some (Char.ofNat (16 * hex_value h + hex_value l))
  | '\\' :: c :: _ => some c
  | c :: _ => some c
  | [] => none

theorem unescape_control (n : Nat) (h : n < 32) (r : Text) :
    unescape (escape (Char.ofNat n) ++ r) = some (Char.ofNat n) := by
  interval_cases n <;> rfl

theorem unescape_escape (c : Char) (r : Text) : unescape (escape c ++ r) = some c := by
  by_cases hcontrol : c.toNat < 32
  · have := unescape_control c.toNat hcontrol r
    rwa [Char.ofNat_toNat] at this
  · by_cases hquote : c = '\x22'
    · subst hquote
      rfl
    by_cases hslash : c = '\\'
    · subst hslash
      rfl
    have hplain : escape c = [c] := by
      unfold escape
      have hne : ∀ d : Char, d.toNat < 32 → c ≠ d := by
        rintro d hd rfl
        exact hcontrol hd
      rw [if_neg hquote, if_neg hslash, if_neg (by omega), if_neg (by omega),
        if_neg (hne _ (by decide)), if_neg (hne _ (by decide)), if_neg (hne _ (by decide)),
        if_neg hcontrol]
    rw [hplain, List.singleton_append, unescape.eq_def]
    split <;> simp_all

theorem escape_self_delimiting : SelfDelimiting escape :=
  .of_decode unescape_escape

theorem escape_ne_quote (c : Char) (r s : Text) : escape c ++ r ≠ '\x22' :: s := by
  unfold escape
  split_ifs <;> simp_all

theorem quote_self_delimiting : SelfDelimiting quote := by
  intro t u r s heq
  simp only [quote, List.append_assoc] at heq
  exact (escape_self_delimiting.flatMap_cancel escape_ne_quote (List.cons.inj heq).2).1

/-! ## The entries of a map -/

theorem entry_self_delimiting :
    SelfDelimiting fun e : Text × Text => quote e.1 ++ [':'] ++ quote e.2 := by
  rintro ⟨k, v⟩ ⟨k', v'⟩ r s heq
  simp only [List.append_assoc] at heq
  obtain ⟨rfl, hrest⟩ := quote_self_delimiting.cancel heq
  obtain ⟨rfl, -⟩ := quote_self_delimiting.cancel (List.cons.inj hrest).2
  rfl

/-- The text of a map is the text of no other map. -/
theorem encode_map_injective : Function.Injective encode_map := by
  intro es ds heq
  unfold encode_map at heq
  rw [List.append_assoc, List.append_assoc] at heq
  refine entry_self_delimiting.join_cancel (by decide) ?_ (List.cons.inj heq).2
  intro e r s hbegins
  exact absurd (List.cons.inj hbegins).1 (by decide)

end Ecode.json
