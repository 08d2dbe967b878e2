-- What `truncate_middle` (core/src/truncate.rs) gives back: what stays of the text, how long
-- it is with its marker, and whether the marker counts what is gone.
import Ecode.Truncate

namespace Ecode.truncate

/-! ## The marker -/

theorem len_of_one_byte {t : Text} (h : ∀ c ∈ t, c.utf8Size = 1) : Text.len t = t.length := by
  induction t with
  | nil => rfl
  | cons c t ih =>
    rw [Text.len_cons, h c List.mem_cons_self, ih fun d hd => h d (List.mem_cons_of_mem _ hd),
      List.length_cons, Nat.add_comm]

theorem utf8Size_of_digit {c : Char} (h : c.isDigit = true) : c.utf8Size = 1 := by
  rw [Char.utf8Size_eq_one_iff, UInt32.le_iff_toNat_le]
  simp only [Char.isDigit, Bool.and_eq_true, decide_eq_true_eq, UInt32.le_iff_toNat_le] at h
  have hnine : ('9'.val).toNat = 57 := rfl
  have hlast : (127 : UInt32).toNat = 127 := rfl
  omega

theorem len_ofNat (n : Nat) : Text.len (Text.ofNat n) = (Nat.toDigits 10 n).length :=
  len_of_one_byte fun _ hc =>
    utf8Size_of_digit (Nat.isDigit_of_mem_toDigits (by decide) (by decide) hc)

/-- A smaller count does not make the marker longer. -/
theorem marker_len_mono {m n : Nat} (h : m ≤ n) :
    Text.len (marker m) ≤ Text.len (marker n) := by
  have hn : n < 10 ^ (Nat.toDigits 10 n).length :=
    (Nat.length_toDigits_le_iff (by decide) Nat.length_toDigits_pos).mp (Nat.le_refl _)
  have hdigits : (Nat.toDigits 10 m).length ≤ (Nat.toDigits 10 n).length :=
    (Nat.length_toDigits_le_iff (by decide) Nat.length_toDigits_pos).mpr (Nat.lt_of_le_of_lt h hn)
  unfold marker
  simp only [Text.len_append, len_ofNat]
  omega

theorem tokens_of_bytes_mono {a b : Nat} (h : a ≤ b) : tokens_of_bytes a ≤ tokens_of_bytes b := by
  unfold tokens_of_bytes
  omega

/-! ## The counts of the rounds -/

section rounds

variable (s : Text) (max_bytes : Nat)

/-- The estimate for the whole text. -/
def est_tokens : Nat := tokens_of_bytes (Text.len s)

/-- What a marker with this count leaves for the text. -/
def keep_budget (tokens : Nat) : Nat := max_bytes - Text.len (marker tokens)

def prefix_end (tokens : Nat) : Nat := pick_prefix_end s (keep_budget max_bytes tokens / 2)

def suffix_start (tokens : Nat) : Nat :=
  pick_suffix_start s (keep_budget max_bytes tokens - keep_budget max_bytes tokens / 2)

/-- The count of what is cut out when the marker has this count. -/
def recount (tokens : Nat) : Nat :=
  tokens_of_bytes (Text.len s -
    (prefix_end s max_bytes tokens + (Text.len s - suffix_start s max_bytes tokens)))

/-- The guess after some rounds. -/
def guess (rounds : Nat) : Nat := (recount s max_bytes)^[rounds] (est_tokens s)

end rounds

variable {s : Text} {max_bytes tokens : Nat}

theorem recount_le : recount s max_bytes tokens ≤ est_tokens s :=
  tokens_of_bytes_mono (Nat.sub_le _ _)

theorem guess_le (n : Nat) : guess s max_bytes n ≤ est_tokens s := by
  cases n with
  | zero => exact Nat.le_refl _
  | succ n =>
    unfold guess
    rw [Function.iterate_succ_apply']
    exact recount_le

/-- No guess has less room than the first. -/
theorem keep_budget_pos (h : 0 < keep_budget max_bytes (est_tokens s))
    (hle : tokens ≤ est_tokens s) : 0 < keep_budget max_bytes tokens := by
  have hmarker := marker_len_mono hle
  unfold keep_budget at *
  omega

/-- What stays at the front ends before what stays at the end starts, both at boundaries and within
their halves of the budget. -/
theorem ends_spec (tokens : Nat) (h : max_bytes < Text.len s) :
    prefix_end s max_bytes tokens ≤ keep_budget max_bytes tokens / 2 ∧
      is_char_boundary s (prefix_end s max_bytes tokens) = true ∧
      Text.len s - (keep_budget max_bytes tokens - keep_budget max_bytes tokens / 2) ≤
        suffix_start s max_bytes tokens ∧
      suffix_start s max_bytes tokens ≤ Text.len s ∧
      is_char_boundary s (suffix_start s max_bytes tokens) = true := by
  have hbudget : keep_budget max_bytes tokens ≤ max_bytes := Nat.sub_le _ _
  obtain ⟨hle, hboundary⟩ := pick_prefix_end_boundary
    (show keep_budget max_bytes tokens / 2 ≤ Text.len s by omega)
  obtain ⟨hstart, hlen, hboundary'⟩ := pick_suffix_start_boundary s
    (keep_budget max_bytes tokens - keep_budget max_bytes tokens / 2)
  exact ⟨hle, hboundary, hstart, hlen, hboundary'⟩

theorem prefix_end_le_suffix_start (tokens : Nat) (h : max_bytes < Text.len s) :
    prefix_end s max_bytes tokens ≤ suffix_start s max_bytes tokens := by
  obtain ⟨hle, -, hstart, -, -⟩ := ends_spec tokens h
  have hbudget : keep_budget max_bytes tokens ≤ max_bytes := Nat.sub_le _ _
  omega

/-- A round either keeps its guess, which later rounds would keep too, or goes on with the
recount. -/
theorem rounds_eq (h : max_bytes < Text.len s) (hroom : 0 < keep_budget max_bytes (est_tokens s))
    (n : Nat) (hle : tokens ≤ est_tokens s) :
    rounds s max_bytes n tokens =
      around s ((recount s max_bytes)^[n] tokens)
        (prefix_end s max_bytes ((recount s max_bytes)^[n] tokens))
        (suffix_start s max_bytes ((recount s max_bytes)^[n] tokens)) := by
  induction n generalizing tokens with
  | zero => exact if_neg (Nat.pos_iff_ne_zero.mp (keep_budget_pos hroom hle))
  | succ n ih =>
    have hmax : max (prefix_end s max_bytes tokens) (suffix_start s max_bytes tokens) =
        suffix_start s max_bytes tokens :=
      Nat.max_eq_right (prefix_end_le_suffix_start tokens h)
    have hround : rounds s max_bytes (n + 1) tokens =
        if recount s max_bytes tokens = tokens then
          around s tokens (prefix_end s max_bytes tokens) (suffix_start s max_bytes tokens)
        else rounds s max_bytes n (recount s max_bytes tokens) := by
      unfold recount
      rw [← hmax]
      exact if_neg (Nat.pos_iff_ne_zero.mp (keep_budget_pos hroom hle))
    rw [hround]
    split
    · next hfixed => rw [Function.iterate_fixed hfixed]
    · rw [ih recount_le, Function.iterate_succ_apply]

/-! ## What stays -/

/-- What stays of the text: all of it, nothing beside the marker, or a front and an end with a
marker between them. -/
inductive Kept where
  | whole
  | nothing
  | ends (front tail : Text) (tokens : Nat)
  deriving DecidableEq, Repr

namespace Kept

/-- The marker that is inserted. -/
def inserted (s : Text) : Kept → Option Text
  | .whole => none
  | .nothing => some (marker (est_tokens s))
  | .ends _ _ tokens => some (marker tokens)

def text (s : Text) : Kept → Text
  | .whole => s
  | .nothing => marker (est_tokens s)
  | .ends front tail tokens => front ++ marker tokens ++ ['\n'] ++ tail

end Kept

/-- What stays, where the count of the marker is the guess after the last round. -/
def kept (s : Text) (max_bytes : Nat) : Option Kept :=
  if Text.len s ≤ max_bytes then some .whole
  else if keep_budget max_bytes (est_tokens s) = 0 then some .nothing
  else
    (Text.cut (prefix_end s max_bytes (guess s max_bytes 4)) s).bind fun front =>
      (Text.cut (suffix_start s max_bytes (guess s max_bytes 4)) s).map fun tail =>
        .ends front.1 tail.2 (guess s max_bytes 4)

/-- The text for a budget that the marker uses up. -/
theorem bare_text (h : keep_budget max_bytes (est_tokens s) = 0) (hlt : max_bytes < Text.len s) :
    (truncate_middle s max_bytes).map Prod.fst = some (marker (est_tokens s)) := by
  have hrounds : rounds s max_bytes 4 (est_tokens s) = some (marker (est_tokens s)) := if_pos h
  unfold truncate_middle
  rw [if_neg (by omega)]
  dsimp only
  split
  · rfl
  · rw [show tokens_of_bytes (Text.len s) = est_tokens s from rfl, hrounds]
    rfl

theorem around_text (h : 0 < keep_budget max_bytes (est_tokens s)) (hlt : max_bytes < Text.len s) :
    (truncate_middle s max_bytes).map Prod.fst =
      around s (guess s max_bytes 4) (prefix_end s max_bytes (guess s max_bytes 4))
        (suffix_start s max_bytes (guess s max_bytes 4)) := by
  have hmax : max_bytes ≠ 0 := by
    rintro rfl
    simp [keep_budget] at h
  have hrounds := rounds_eq hlt h 4 (Nat.le_refl (est_tokens s))
  unfold truncate_middle guess
  rw [if_neg (by omega)]
  dsimp only
  rw [if_neg hmax, Option.map_map, show tokens_of_bytes (Text.len s) = est_tokens s from rfl,
    hrounds]
  exact Option.map_id'

/-- What is given back is made of what stays. -/
theorem truncate_middle_kept (s : Text) (max_bytes : Nat) :
    (truncate_middle s max_bytes).map Prod.fst = (kept s max_bytes).map (Kept.text s) := by
  unfold kept
  split
  · next h =>
    unfold truncate_middle
    rw [if_pos h]
    rfl
  · next h =>
    split
    · next hroom => exact bare_text hroom (by omega)
    · next hroom =>
      rw [around_text (Nat.pos_of_ne_zero hroom) (by omega)]
      unfold around
      cases Text.cut (prefix_end s max_bytes (guess s max_bytes 4)) s with
      | none => rfl
      | some front =>
        cases Text.cut (suffix_start s max_bytes (guess s max_bytes 4)) s with
        | none => rfl
        | some tail => rfl

/-- A front and an end of the text that do not overlap, at the ends of their budgets. -/
theorem kept_spec (s : Text) (max_bytes : Nat) :
    (Text.len s ≤ max_bytes ∧ kept s max_bytes = some .whole) ∨
    (max_bytes < Text.len s ∧ keep_budget max_bytes (est_tokens s) = 0 ∧
      kept s max_bytes = some .nothing) ∨
    (max_bytes < Text.len s ∧ 0 < keep_budget max_bytes (guess s max_bytes 4) ∧
      0 < keep_budget max_bytes (est_tokens s) ∧
      ∃ front tail, kept s max_bytes = some (.ends front tail (guess s max_bytes 4)) ∧
        front <+: s ∧ tail <:+ s ∧
        Text.len front = prefix_end s max_bytes (guess s max_bytes 4) ∧
        Text.len tail = Text.len s - suffix_start s max_bytes (guess s max_bytes 4) ∧
        Text.len front + Text.len tail ≤ Text.len s) := by
  unfold kept
  split
  · next h => exact .inl ⟨h, rfl⟩
  · next h =>
    have hlt : max_bytes < Text.len s := by omega
    split
    · next hroom => exact .inr (.inl ⟨hlt, hroom, rfl⟩)
    · next hroom =>
      have hpos := Nat.pos_of_ne_zero hroom
      obtain ⟨-, hfront, -, hend, htail⟩ := ends_spec (guess s max_bytes 4) hlt
      have hle := prefix_end_le_suffix_start (guess s max_bytes 4) hlt
      obtain ⟨p, hp⟩ := Option.isSome_iff_exists.mp hfront
      obtain ⟨q, hq⟩ := Option.isSome_iff_exists.mp htail
      obtain ⟨hp1, hp2⟩ := Text.cut_len hp
      obtain ⟨hq1, hq2⟩ := Text.cut_len hq
      refine .inr (.inr ⟨hlt, keep_budget_pos hpos (guess_le 4), hpos, p.1, q.2, ?_, ?_, ?_, hp1,
        by omega, by omega⟩)
      · rw [hp, hq]
        rfl
      · exact ⟨p.2, Text.cut_append hp⟩
      · exact ⟨q.1, Text.cut_append hq⟩

/-! ## The length of what is given back -/

theorem find_eq_none_iff {c : Char} {t : Text} : find c t = none ↔ c ∉ t := by
  induction t with
  | nil => simp [find]
  | cons d t ih =>
    unfold find
    split
    · next hd => simp [hd]
    · next hd => simp [ih, Ne.symm hd]

theorem rfind_eq_none_iff {c : Char} {t : Text} : rfind c t = none ↔ c ∉ t := by
  induction t with
  | nil => simp [rfind]
  | cons d t ih =>
    unfold rfind
    split
    · next i hi =>
      have hmem : c ∈ t := by
        by_contra hnot
        rw [ih.mpr hnot] at hi
        cases hi
      simp [hmem]
    · next hi =>
      split
      · next hd => simp [hd]
      · next hd => simp [ih.mp hi, Ne.symm hd]

/-- The last occurrence, with what is before and after it. -/
theorem rfind_eq_some {c : Char} {t : Text} {i : Nat} (h : rfind c t = some i) :
    ∃ a b, t = a ++ c :: b ∧ c ∉ b ∧ i = Text.len a := by
  induction t generalizing i with
  | nil => cases h
  | cons d t ih =>
    unfold rfind at h
    split at h
    · next j hj =>
      obtain rfl := Option.some.inj h
      obtain ⟨a, b, rfl, hb, rfl⟩ := ih hj
      exact ⟨d :: a, b, rfl, hb, by rw [Text.len_cons, Nat.add_comm]⟩
    · next hnone =>
      split at h
      · next hd =>
        obtain rfl := Option.some.inj h
        exact ⟨[], t, by rw [hd]; rfl, rfind_eq_none_iff.mp hnone, rfl⟩
      · cases h

/-- The first `left_budget` bytes are whole characters, and with no line feed, or one at their
end. -/
def FrontWhole (s : Text) (left_budget : Nat) : Prop :=
  ∃ p, Text.cut left_budget s = some p ∧ ('\n' ∈ p.1 → p.1.getLast? = some '\n')

/-- The last `right_budget` bytes are whole characters, and with no line feed. -/
def TailWhole (s : Text) (right_budget : Nat) : Prop :=
  ∃ p, Text.cut (Text.len s - right_budget) s = some p ∧ '\n' ∉ p.2

theorem pick_prefix_end_eq_iff {left_budget : Nat} (h : left_budget ≤ Text.len s) :
    pick_prefix_end s left_budget = left_budget ↔ FrontWhole s left_budget := by
  unfold pick_prefix_end FrontWhole
  cases hcut : Text.cut left_budget s with
  | none =>
    -- the place is inside of a character
    have hoff : is_char_boundary s left_budget = false := by simp [is_char_boundary, hcut]
    have hne : boundary_down s left_budget ≠ left_budget := by
      intro heq
      have hon := boundary_down_boundary s left_budget
      rw [heq, hoff] at hon
      cases hon
    simpa [truncate_on_boundary_len_eq h] using hne
  | some p =>
    have hlen := (Text.cut_len hcut).1
    have hon : is_char_boundary s left_budget = true := by simp [is_char_boundary, hcut]
    cases hfind : rfind '\n' p.1 with
    | none =>
      simp [hfind, truncate_on_boundary_len_eq h, boundary_down_eq_self hon,
        rfind_eq_none_iff.mp hfind]
    | some i =>
      obtain ⟨a, b, hp, hb, rfl⟩ := rfind_eq_some hfind
      have hbytes : left_budget = Text.len a + (1 + Text.len b) := by
        rw [← hlen, hp, Text.len_append, Text.len_cons]
        rfl
      have hmem : '\n' ∈ p.1 := by simp [hp]
      -- the line feed is the last of them when nothing is after it
      have hlast : p.1.getLast? = some '\n' ↔ b = [] := by
        rw [hp]
        cases b with
        | nil => simp
        | cons c b =>
          have hne : (c :: b).getLast? ≠ some '\n' :=
            fun h => hb (List.mem_of_getLast? h)
          simpa [List.getLast?_append, List.getLast?_cons] using hne
      simp only [Option.bind_some, hfind, Option.some.injEq, exists_eq_left', hmem, forall_const,
        hlast, ← Text.len_eq_zero]
      omega

theorem pick_suffix_start_eq_iff {right_budget : Nat} :
    pick_suffix_start s right_budget = Text.len s - right_budget ↔ TailWhole s right_budget := by
  unfold pick_suffix_start TailWhole
  dsimp only
  obtain ⟨-, -, hup⟩ := boundary_up_boundary
    (show Text.len s - right_budget ≤ Text.len s by omega)
    (show Text.len s ≤ Text.len s - right_budget + Text.len s by omega)
  cases hcut : Text.cut (Text.len s - right_budget) s with
  | none =>
    have hne : boundary_up s (Text.len s) (Text.len s - right_budget) ≠
        Text.len s - right_budget := by
      intro heq
      rw [heq] at hup
      simp [is_char_boundary, hcut] at hup
    simpa using hne
  | some p =>
    have hon : is_char_boundary s (Text.len s - right_budget) = true := by
      simp [is_char_boundary, hcut]
    cases hfind : find '\n' p.2 with
    | none =>
      simp [hfind, boundary_up_eq_self hon, find_eq_none_iff.mp hfind]
    | some i =>
      have hmem : '\n' ∈ p.2 := by
        by_contra hnot
        rw [find_eq_none_iff.mpr hnot] at hfind
        cases hfind
      simp only [Option.bind_some, hfind, Option.some.injEq, exists_eq_left', hmem,
        not_true_eq_false, iff_false]
      omega

/-- The text has bytes to spare: the marker takes the whole budget, or one of the halves that it
leaves is not kept as a whole. -/
def Spare (s : Text) (room : Nat) : Prop :=
  room = 0 ∨ ¬(FrontWhole s (room / 2) ∧ TailWhole s (room - room / 2))

theorem spare_iff (h : max_bytes < Text.len s) : Spare s (keep_budget max_bytes tokens) ↔
    keep_budget max_bytes tokens = 0 ∨
      ¬(prefix_end s max_bytes tokens = keep_budget max_bytes tokens / 2 ∧
        suffix_start s max_bytes tokens =
          Text.len s - (keep_budget max_bytes tokens - keep_budget max_bytes tokens / 2)) := by
  have hbudget : keep_budget max_bytes tokens ≤ max_bytes := Nat.sub_le _ _
  unfold Spare prefix_end suffix_start
  rw [pick_prefix_end_eq_iff (by omega), pick_suffix_start_eq_iff]

theorem text_len (s front tail : Text) (tokens : Nat) :
    Text.len (Kept.text s (.ends front tail tokens)) =
      Text.len front + Text.len (marker tokens) + 1 + Text.len tail := by
  unfold Kept.text
  rw [Text.len_append, Text.len_append, Text.len_append]
  rfl

/-- What `truncate_middle` gives back is within its budget, where the marker is, exactly when it
has bytes to spare: the line feed after the marker is not counted. -/
theorem truncate_middle_within_budget_iff (s : Text) (max_bytes : Nat) :
    ∃ k, kept s max_bytes = some k ∧ (truncate_middle s max_bytes).map Prod.fst = some (k.text s) ∧
      (((∀ m ∈ k.inserted s, Text.len m ≤ max_bytes) → Text.len (k.text s) ≤ max_bytes) ↔
        ∀ m ∈ k.inserted s, Text.len m ≤ max_bytes → Spare s (max_bytes - Text.len m)) := by
  rw [truncate_middle_kept]
  rcases kept_spec s max_bytes with ⟨hle, hk⟩ | ⟨-, hroom, hk⟩ |
    ⟨hlt, hroom, -, front, tail, hk, -, -, hfront, htail, -⟩
  · refine ⟨_, hk, by rw [hk]; rfl, ?_⟩
    simpa [Kept.inserted, Kept.text] using hle
  · refine ⟨_, hk, by rw [hk]; rfl, ?_⟩
    unfold keep_budget at hroom
    simp only [Kept.inserted, Kept.text, Option.mem_def, Option.some.injEq, forall_eq', Spare]
    exact ⟨fun _ _ => .inl hroom, fun _ h => h⟩
  · refine ⟨_, hk, by rw [hk]; rfl, ?_⟩
    generalize guess s max_bytes 4 = tokens at *
    obtain ⟨hfront_le, -, htail_le, htail_len, -⟩ := ends_spec tokens hlt
    have hbudget : keep_budget max_bytes tokens = max_bytes - Text.len (marker tokens) := rfl
    simp only [Kept.inserted, Option.mem_def, Option.some.injEq, forall_eq']
    rw [text_len, hfront, htail, ← hbudget, spare_iff hlt]
    omega

/-- A long line: the marker fits, and one byte of the line beside it does not. -/
theorem long_line_exceeds_budget :
    (truncate_middle (List.replicate 30 'a') 25).map Prod.fst =
        some (marker 8 ++ ['\n'] ++ ['a']) ∧
      Text.len (marker 8) ≤ 25 ∧ ¬Text.len (marker 8 ++ ['\n'] ++ ['a']) ≤ 25 := by
  decide +kernel

/-! ## The count in the marker -/

/-- The front and the end are of the text, they do not overlap, and the marker counts the bytes
that are in neither. -/
def Kept.Faithful (s : Text) : Kept → Prop
  | .whole => True
  | .nothing => True
  | .ends front tail tokens =>
    front <+: s ∧ tail <:+ s ∧ Text.len front + Text.len tail ≤ Text.len s ∧
      tokens = tokens_of_bytes (Text.len s - Text.len front - Text.len tail)

/-- The estimate for the whole text, or one of its first four recounts, is its own recount. -/
def Settles (s : Text) (max_bytes : Nat) : Prop :=
  ∃ n ≤ 4, recount s max_bytes (guess s max_bytes n) = guess s max_bytes n

/-- A count that is its own recount stays for the rounds that are left. -/
theorem settles_iff :
    Settles s max_bytes ↔ recount s max_bytes (guess s max_bytes 4) = guess s max_bytes 4 := by
  constructor
  · rintro ⟨n, hn, hfixed⟩
    obtain ⟨m, hm⟩ := Nat.exists_eq_add_of_le' hn
    have hlast : guess s max_bytes 4 = guess s max_bytes n := by
      unfold guess at hfixed ⊢
      rw [hm, Function.iterate_add_apply, Function.iterate_fixed hfixed]
    rw [hlast]
    exact hfixed
  · intro h
    exact ⟨4, Nat.le_refl 4, h⟩

/-- The marker counts what is cut out exactly when there is no text around it or the rounds come to
rest. -/
theorem truncate_middle_faithful_iff (s : Text) (max_bytes : Nat) :
    ∃ k, kept s max_bytes = some k ∧ (truncate_middle s max_bytes).map Prod.fst = some (k.text s) ∧
      (k.Faithful s ↔ Text.len s ≤ max_bytes ∨ max_bytes ≤ Text.len (marker (est_tokens s)) ∨
        Settles s max_bytes) := by
  rw [truncate_middle_kept]
  rcases kept_spec s max_bytes with ⟨hle, hk⟩ | ⟨-, hroom, hk⟩ |
    ⟨hlt, -, hroom, front, tail, hk, hpre, hsuf, hfront, htail, hlen⟩
  · exact ⟨_, hk, by rw [hk]; rfl, iff_of_true trivial (.inl hle)⟩
  · have hmarker : max_bytes ≤ Text.len (marker (est_tokens s)) := Nat.sub_eq_zero_iff_le.mp hroom
    exact ⟨_, hk, by rw [hk]; rfl, iff_of_true trivial (.inr (.inl hmarker))⟩
  · refine ⟨_, hk, by rw [hk]; rfl, ?_⟩
    have hmarker : ¬max_bytes ≤ Text.len (marker (est_tokens s)) := by
      unfold keep_budget at hroom
      omega
    have hcut : recount s max_bytes (guess s max_bytes 4) =
        tokens_of_bytes (Text.len s - Text.len front - Text.len tail) := by
      rw [Nat.sub_sub, hfront, htail]
      rfl
    rw [settles_iff, hcut]
    constructor
    · rintro ⟨-, -, -, hcount⟩
      exact .inr (.inr hcount.symm)
    · rintro (hle | hle | hcount)
      · omega
      · exact absurd hle hmarker
      · exact ⟨hpre, hsuf, hlen, hcount.symm⟩

/-- A text of 400 bytes whose rounds go to and fro: with a marker of three digits the last four
bytes start inside of a character, so the three of them that are whole stay, and with one of two
digits the last five bytes start with that character, and only what is after their line feed
stays, which is nothing. -/
def uneven : Text := "a\nbc".toList ++ List.replicate 391 'z' ++ "éxy\n".toList

theorem uneven_is_miscounted :
    (truncate_middle uneven 34).map Prod.fst =
        some ("a\n".toList ++ marker 100 ++ "\nxy\n".toList) ∧
      kept uneven 34 = some (.ends "a\n".toList "xy\n".toList 100) ∧
      ¬(Kept.ends "a\n".toList "xy\n".toList 100).Faithful uneven := by
  refine ⟨by decide +kernel, by decide +kernel, ?_⟩
  rintro ⟨-, -, -, hcount⟩
  revert hcount
  decide +kernel

end Ecode.truncate
