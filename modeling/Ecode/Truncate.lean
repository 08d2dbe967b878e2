-- The middle of a long text is cut out (core/src/truncate.rs): a beginning and an
-- end stay, at line breaks where there are some, with a marker between them.
import Ecode.TextCuts

namespace Ecode.truncate

/-! ## Positions in bytes -/

/-- `str::find` of a character. -/
def find (c : Char) : Text → Option Nat
  | [] => none
  | d :: t => if d = c then some 0 else (find c t).map (· + d.utf8Size)

/-- `str::rfind` of a character. -/
def rfind (c : Char) : Text → Option Nat
  | [] => none
  | d :: t =>
    match rfind c t with
    | some i => some (i + d.utf8Size)
    | none => if d = c then some 0 else none

def is_char_boundary (s : Text) (n : Nat) : Bool := (Text.cut n s).isSome

/-- The last boundary from `n` down. -/
def boundary_down (s : Text) : Nat → Nat
  | 0 => 0
  | n + 1 => if is_char_boundary s (n + 1) then n + 1 else boundary_down s n

/-- The first boundary from `idx` up, with `fuel` bytes to try. -/
def boundary_up (s : Text) : Nat → Nat → Nat
  | 0, idx => idx
  | fuel + 1, idx =>
    if idx < Text.len s ∧ !is_char_boundary s idx then boundary_up s fuel (idx + 1) else idx

/-- The length of `truncate_on_boundary`. -/
def truncate_on_boundary_len (input : Text) (max_len : Nat) : Nat :=
  if Text.len input ≤ max_len then Text.len input else boundary_down input max_len

def pick_prefix_end (s : Text) (left_budget : Nat) : Nat :=
  match (Text.cut left_budget s).bind fun p => rfind '\n' p.1 with
  | some i => i + 1
  | none => truncate_on_boundary_len s left_budget

def pick_suffix_start (s : Text) (right_budget : Nat) : Nat :=
  let start_tail := Text.len s - right_budget
  match (Text.cut start_tail s).bind fun p => find '\n' p.2 with
  | some i => start_tail + i + 1
  | none => boundary_up s (Text.len s) start_tail

/-! ## The cut -/

/-- `div_ceil(4)`. -/
def tokens_of_bytes (bytes : Nat) : Nat := (bytes + 3) / 4

def marker (tokens : Nat) : Text :=
  "…".toList ++ Text.ofNat tokens ++ " tokens truncated…".toList

/-- The text around the marker. A slice inside of a character panics. -/
def around (s : Text) (tokens prefix_end suffix_start : Nat) : Option Text := do
  let (head, _) ← Text.cut prefix_end s
  let (_, tail) ← Text.cut suffix_start s
  some (head ++ marker tokens ++ ['\n'] ++ tail)

/-- The rounds that look for a marker with the right count, and the text after the last one. -/
def rounds (s : Text) (max_bytes : Nat) : Nat → Nat → Option Text
  | 0, guess_tokens =>
    let keep_budget := max_bytes - Text.len (marker guess_tokens)
    if keep_budget = 0 then some (marker (tokens_of_bytes (Text.len s)))
    else
      let left_budget := keep_budget / 2
      around s guess_tokens (pick_prefix_end s left_budget)
        (pick_suffix_start s (keep_budget - left_budget))
  | n + 1, guess_tokens =>
    let keep_budget := max_bytes - Text.len (marker guess_tokens)
    if keep_budget = 0 then some (marker (tokens_of_bytes (Text.len s)))
    else
      let left_budget := keep_budget / 2
      let prefix_end := pick_prefix_end s left_budget
      let suffix_start := max prefix_end (pick_suffix_start s (keep_budget - left_budget))
      let kept_content_bytes := prefix_end + (Text.len s - suffix_start)
      let new_tokens := tokens_of_bytes (Text.len s - kept_content_bytes)
      if new_tokens = guess_tokens then around s guess_tokens prefix_end suffix_start
      else rounds s max_bytes n new_tokens

/-- `truncate_middle`: the text, and the tokens of the whole when it was cut. -/
def truncate_middle (s : Text) (max_bytes : Nat) : Option (Text × Option Nat) :=
  if Text.len s ≤ max_bytes then some (s, none)
  else
    let est_tokens := tokens_of_bytes (Text.len s)
    if max_bytes = 0 then some (marker est_tokens, some est_tokens)
    else (rounds s max_bytes 4 est_tokens).map fun out => (out, some est_tokens)

/-! ## What a part of the text decides -/

theorem is_char_boundary_append_left {n : Nat} {a : Text} (h : n ≤ Text.len a) (b : Text) :
    is_char_boundary (a ++ b) n = is_char_boundary a n := by
  unfold is_char_boundary
  rw [Text.cut_append_left h, Option.isSome_map]

theorem is_char_boundary_append_right (a b : Text) (n : Nat) :
    is_char_boundary (a ++ b) (Text.len a + n) = is_char_boundary b n := by
  unfold is_char_boundary
  rw [Text.cut_append_right, Option.isSome_map]

theorem is_char_boundary_len (s : Text) : is_char_boundary s (Text.len s) = true := by
  unfold is_char_boundary
  rw [Text.cut_self]
  rfl

/-- A place where a part that is cut off has a boundary is one of the whole. -/
theorem boundary_of_left {n k : Nat} {s : Text} {p : Text × Text} (h : Text.cut n s = some p)
    (hk : is_char_boundary p.1 k = true) (hle : k ≤ n) : is_char_boundary s k = true := by
  rw [← Text.cut_append h, is_char_boundary_append_left (by rw [(Text.cut_len h).1]; exact hle)]
  exact hk

theorem boundary_of_right {n k : Nat} {s : Text} {p : Text × Text} (h : Text.cut n s = some p)
    (hk : is_char_boundary p.2 k = true) : is_char_boundary s (n + k) = true := by
  have hlen := (Text.cut_len h).1
  rw [← Text.cut_append h]
  conv_lhs => rw [← hlen]
  rw [is_char_boundary_append_right]
  exact hk

/-- A line feed is one byte. -/
theorem boundary_after_line_feed (t : Text) : is_char_boundary ('\n' :: t) 1 = true := by
  have h := is_char_boundary_append_right ['\n'] t 0
  unfold is_char_boundary at h
  rw [Text.cut_zero] at h
  exact h

theorem boundary_after_find {t : Text} {i : Nat} (h : find '\n' t = some i) :
    i + 1 ≤ Text.len t ∧ is_char_boundary t (i + 1) = true := by
  induction t generalizing i with
  | nil => cases h
  | cons d t ih =>
    unfold find at h
    split at h
    · next hd =>
      obtain rfl := Option.some.inj h
      subst hd
      exact ⟨by rw [Text.len_cons]; exact Nat.le_add_right 1 _, boundary_after_line_feed t⟩
    · obtain ⟨j, hj, rfl⟩ := Option.map_eq_some_iff.mp h
      obtain ⟨hle, hboundary⟩ := ih hj
      have hright := is_char_boundary_append_right [d] t (j + 1)
      rw [Text.len_cons, show Text.len [] = 0 from rfl] at hright
      refine ⟨by rw [Text.len_cons]; omega, ?_⟩
      rw [← hboundary, ← hright]
      congr 1
      omega

theorem boundary_after_rfind {t : Text} {i : Nat} (h : rfind '\n' t = some i) :
    i + 1 ≤ Text.len t ∧ is_char_boundary t (i + 1) = true := by
  induction t generalizing i with
  | nil => cases h
  | cons d t ih =>
    unfold rfind at h
    split at h
    · next j hj =>
      obtain rfl := Option.some.inj h
      obtain ⟨hle, hboundary⟩ := ih hj
      have hright := is_char_boundary_append_right [d] t (j + 1)
      rw [Text.len_cons, show Text.len [] = 0 from rfl] at hright
      refine ⟨by rw [Text.len_cons]; omega, ?_⟩
      rw [← hboundary, ← hright]
      congr 1
      omega
    · split at h
      · next hd =>
        obtain rfl := Option.some.inj h
        subst hd
        exact ⟨by rw [Text.len_cons]; exact Nat.le_add_right 1 _, boundary_after_line_feed t⟩
      · cases h

theorem boundary_down_le (s : Text) (n : Nat) : boundary_down s n ≤ n := by
  induction n with
  | zero => exact Nat.le_refl 0
  | succ n ih =>
    unfold boundary_down
    split
    · exact Nat.le_refl _
    · exact Nat.le_succ_of_le ih

theorem boundary_down_boundary (s : Text) (n : Nat) :
    is_char_boundary s (boundary_down s n) = true := by
  induction n with
  | zero =>
    unfold boundary_down is_char_boundary
    rw [Text.cut_zero]
    rfl
  | succ n ih =>
    unfold boundary_down
    split
    · assumption
    · exact ih

theorem boundary_down_append {n : Nat} {a : Text} (h : n ≤ Text.len a) (b : Text) :
    boundary_down (a ++ b) n = boundary_down a n := by
  induction n with
  | zero => rfl
  | succ n ih =>
    rw [boundary_down, boundary_down, is_char_boundary_append_left h, ih (by omega)]

theorem boundary_down_eq_self {s : Text} {n : Nat} (h : is_char_boundary s n = true) :
    boundary_down s n = n := by
  rcases n with _ | n
  · rfl
  · exact if_pos h

theorem truncate_on_boundary_len_eq {s : Text} {n : Nat} (h : n ≤ Text.len s) :
    truncate_on_boundary_len s n = boundary_down s n := by
  unfold truncate_on_boundary_len
  split
  · obtain rfl : n = Text.len s := by omega
    exact (boundary_down_eq_self (is_char_boundary_len s)).symm
  · rfl

/-- The end of what is kept at the front is a boundary within the budget. -/
theorem pick_prefix_end_boundary {s : Text} {left_budget : Nat} (h : left_budget ≤ Text.len s) :
    pick_prefix_end s left_budget ≤ left_budget ∧
      is_char_boundary s (pick_prefix_end s left_budget) = true := by
  unfold pick_prefix_end
  split
  · next i hi =>
    obtain ⟨p, hp, hfind⟩ := Option.bind_eq_some_iff.mp hi
    obtain ⟨hle, hboundary⟩ := boundary_after_rfind hfind
    rw [(Text.cut_len hp).1] at hle
    exact ⟨hle, boundary_of_left hp hboundary hle⟩
  · rw [truncate_on_boundary_len_eq h]
    exact ⟨boundary_down_le s left_budget, boundary_down_boundary s left_budget⟩

/-- A part that is as long as the budget decides what is kept at the front. -/
theorem pick_prefix_end_append {left_budget : Nat} {a : Text} (h : left_budget ≤ Text.len a)
    (b : Text) : pick_prefix_end (a ++ b) left_budget = pick_prefix_end a left_budget := by
  have hle : left_budget ≤ Text.len (a ++ b) := by
    rw [Text.len_append]
    omega
  have hfind : ((Text.cut left_budget (a ++ b)).bind fun p => rfind '\n' p.1) =
      (Text.cut left_budget a).bind fun p => rfind '\n' p.1 := by
    rw [Text.cut_append_left h, Option.bind_map]
    rfl
  unfold pick_prefix_end
  rw [hfind, truncate_on_boundary_len_eq hle, truncate_on_boundary_len_eq h,
    boundary_down_append h]

theorem boundary_up_append (a b : Text) (fuel idx : Nat) :
    boundary_up (a ++ b) fuel (Text.len a + idx) = Text.len a + boundary_up b fuel idx := by
  induction fuel generalizing idx with
  | zero => rfl
  | succ fuel ih =>
    rw [boundary_up, boundary_up, is_char_boundary_append_right, Text.len_append, Nat.add_assoc, ih]
    simp only [Nat.add_lt_add_iff_left]
    split
    · rfl
    · rfl

/-- With the bytes up to the end to try, more make no difference. -/
theorem boundary_up_fuel (s : Text) (fuel idx : Nat) (h : Text.len s ≤ idx + fuel) :
    boundary_up s fuel idx = boundary_up s (Text.len s - idx) idx := by
  induction fuel generalizing idx with
  | zero => rw [Nat.sub_eq_zero_of_le (Nat.add_zero idx ▸ h)]
  | succ fuel ih =>
    rw [boundary_up]
    rcases Nat.lt_or_ge idx (Text.len s) with hlt | hge
    · rw [show Text.len s - idx = (Text.len s - (idx + 1)) + 1 by omega, boundary_up,
        ih (idx + 1) (by omega)]
    · rw [if_neg (by omega), Nat.sub_eq_zero_of_le hge, boundary_up]

theorem boundary_up_boundary {s : Text} {fuel idx : Nat} (h : idx ≤ Text.len s)
    (hfuel : Text.len s ≤ idx + fuel) : idx ≤ boundary_up s fuel idx ∧
      boundary_up s fuel idx ≤ Text.len s ∧
      is_char_boundary s (boundary_up s fuel idx) = true := by
  induction fuel generalizing idx with
  | zero =>
    obtain rfl : idx = Text.len s := by omega
    exact ⟨Nat.le_refl _, Nat.le_refl _, is_char_boundary_len s⟩
  | succ fuel ih =>
    unfold boundary_up
    split
    · next hon =>
      obtain ⟨hle, hlen, hboundary⟩ := ih (show idx + 1 ≤ Text.len s by omega) (by omega)
      exact ⟨by omega, hlen, hboundary⟩
    · next hoff =>
      refine ⟨Nat.le_refl _, h, ?_⟩
      rcases Nat.lt_or_ge idx (Text.len s) with hlt | hge
      · simpa [hlt] using hoff
      · obtain rfl : idx = Text.len s := by omega
        exact is_char_boundary_len s

theorem boundary_up_eq_self {s : Text} {fuel idx : Nat} (h : is_char_boundary s idx = true) :
    boundary_up s fuel idx = idx := by
  cases fuel with
  | zero => rfl
  | succ fuel => exact if_neg (by simp [h])

/-- The start of what is kept at the end is a boundary within the budget. -/
theorem pick_suffix_start_boundary (s : Text) (right_budget : Nat) :
    Text.len s - right_budget ≤ pick_suffix_start s right_budget ∧
      pick_suffix_start s right_budget ≤ Text.len s ∧
      is_char_boundary s (pick_suffix_start s right_budget) = true := by
  unfold pick_suffix_start
  dsimp only
  split
  · next i hi =>
    obtain ⟨p, hp, hfind⟩ := Option.bind_eq_some_iff.mp hi
    obtain ⟨hle, hboundary⟩ := boundary_after_find hfind
    have hlen := Text.cut_len hp
    refine ⟨by omega, by omega, ?_⟩
    rw [Nat.add_assoc]
    exact boundary_of_right hp hboundary
  · exact boundary_up_boundary (by omega) (by omega)

/-- A part that is as long as the budget decides what is kept at the end. -/
theorem pick_suffix_start_append {right_budget : Nat} {b : Text} (h : right_budget ≤ Text.len b)
    (a : Text) : pick_suffix_start (a ++ b) right_budget =
      Text.len a + pick_suffix_start b right_budget := by
  have hstart : Text.len (a ++ b) - right_budget = Text.len a + (Text.len b - right_budget) := by
    rw [Text.len_append]
    omega
  have hfind : ((Text.cut (Text.len a + (Text.len b - right_budget)) (a ++ b)).bind
      fun p => find '\n' p.2) =
      (Text.cut (Text.len b - right_budget) b).bind fun p => find '\n' p.2 := by
    rw [Text.cut_append_right, Option.bind_map]
    rfl
  unfold pick_suffix_start
  dsimp only
  rw [hstart, hfind, boundary_up_append,
    boundary_up_fuel b (Text.len (a ++ b)) _ (by rw [Text.len_append]; omega),
    ← boundary_up_fuel b (Text.len b) _ (by omega)]
  split
  · omega
  · rfl

end Ecode.truncate
