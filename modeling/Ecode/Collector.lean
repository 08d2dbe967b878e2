-- The collector of a command's output (core/src/exec_command/session_manager.rs): it keeps a
-- bounded beginning and a bounded end of the bytes that go by, and cuts the middle out.
import Ecode.Truncate
import Ecode.Utf8

namespace Ecode.session_manager

open truncate utf8

/-! ## The collector -/

structure TruncatingCollector where
  cap_bytes : Nat
  -- fewer than 2 ^ 64 bytes go by: the sums do not saturate
  total_bytes : Nat
  prefix_bytes : List UInt8
  suffix_bytes : List UInt8
  deriving DecidableEq

namespace TruncatingCollector

def new (cap_bytes : Nat) : TruncatingCollector := ⟨cap_bytes, 0, [], []⟩

/-- One byte goes to the back of the suffix, and one leaves its front when it is too long. -/
def push_back (cap_bytes : Nat) (suffix : List UInt8) (byte : UInt8) : List UInt8 :=
  let suffix := suffix ++ [byte]
  if cap_bytes < suffix.length then suffix.tail else suffix

def push (self : TruncatingCollector) (chunk : List UInt8) : TruncatingCollector :=
  if chunk.isEmpty then self
  else
    { self with
      total_bytes := self.total_bytes + chunk.length
      prefix_bytes :=
        if self.prefix_bytes.length < self.cap_bytes then
          let remaining := self.cap_bytes - self.prefix_bytes.length
          let take := min remaining chunk.length
          self.prefix_bytes ++ chunk.take take
        else self.prefix_bytes
      suffix_bytes :=
        if 0 < self.cap_bytes then chunk.foldl (push_back self.cap_bytes) self.suffix_bytes
        else self.suffix_bytes }

end TruncatingCollector

/-! ## The slices -/

-- A slice inside of a character panics.

def truncate_on_boundary (input : Text) (max_len : Nat) : Option Text :=
  if Text.len input ≤ max_len then some input
  else (Text.cut (boundary_down input max_len) input).map Prod.fst

def pick_prefix_slice (input : Text) (left_budget : Nat) : Option Text :=
  if Text.len input ≤ left_budget then some input
  else
    match (Text.cut left_budget input).bind fun p => rfind '\n' p.1 with
    | some idx => (Text.cut (idx + 1) input).map Prod.fst
    | none => truncate_on_boundary input left_budget

def pick_suffix_slice (input : Text) (right_budget : Nat) : Option Text :=
  if Text.len input ≤ right_budget then some input
  else
    let tail_start := Text.len input - right_budget
    match (Text.cut tail_start input).bind fun p => find '\n' p.2 with
    | some idx => (Text.cut (tail_start + idx + 1) input).map Prod.snd
    | none => (Text.cut (boundary_up input (Text.len input) tail_start) input).map Prod.snd

namespace TruncatingCollector

/-- The rounds that look for a marker with the right count, and the text after the last one. -/
def rounds (self : TruncatingCollector) (prefix_str suffix_str : Text) : Nat → Nat → Option Text
  | 0, guess_tokens =>
    let keep_budget := self.cap_bytes - Text.len (marker guess_tokens)
    if keep_budget = 0 then some (marker (tokens_of_bytes self.total_bytes))
    else do
      let left_budget := keep_budget / 2
      let right_budget := keep_budget - left_budget
      let prefix_slice ← pick_prefix_slice prefix_str left_budget
      let suffix_slice ← pick_suffix_slice suffix_str right_budget
      some (prefix_slice ++ marker guess_tokens ++ ['\n'] ++ suffix_slice)
  | n + 1, guess_tokens =>
    let keep_budget := self.cap_bytes - Text.len (marker guess_tokens)
    if keep_budget = 0 then some (marker (tokens_of_bytes self.total_bytes))
    else do
      let left_budget := keep_budget / 2
      let right_budget := keep_budget - left_budget
      let prefix_slice ← pick_prefix_slice prefix_str left_budget
      let suffix_slice ← pick_suffix_slice suffix_str right_budget
      let kept_content_bytes := Text.len prefix_slice + Text.len suffix_slice
      let new_tokens := tokens_of_bytes (self.total_bytes - kept_content_bytes)
      if new_tokens = guess_tokens then
        some (prefix_slice ++ marker guess_tokens ++ ['\n'] ++ suffix_slice)
      else self.rounds prefix_str suffix_str n new_tokens

def finalize (self : TruncatingCollector) : Option (Text × Option Nat) :=
  let est_tokens := tokens_of_bytes self.total_bytes
  if self.cap_bytes = 0 then
    if self.total_bytes = 0 then some ([], none)
    else some (marker est_tokens, some est_tokens)
  else if self.total_bytes ≤ self.cap_bytes then
    some (from_utf8_lossy self.prefix_bytes, none)
  else
    let prefix_str := from_utf8_lossy self.prefix_bytes
    let suffix_str := from_utf8_lossy self.suffix_bytes
    (self.rounds prefix_str suffix_str 4 est_tokens).map fun out => (out, some est_tokens)

/-! ## What is collected -/

/-- The collector after the bytes, computed from them alone. -/
def collected (cap_bytes : Nat) (bytes : List UInt8) : TruncatingCollector :=
  ⟨cap_bytes, bytes.length, bytes.take cap_bytes, bytes.drop (bytes.length - cap_bytes)⟩

theorem push_back_drop (cap_bytes : Nat) (bytes : List UInt8) (byte : UInt8) :
    push_back cap_bytes (bytes.drop (bytes.length - cap_bytes)) byte =
      (bytes ++ [byte]).drop ((bytes ++ [byte]).length - cap_bytes) := by
  unfold push_back
  dsimp only
  have hfront : bytes.length - cap_bytes ≤ bytes.length := Nat.sub_le _ _
  rw [List.length_append, List.length_drop, List.length_append, List.length_singleton,
    ← List.drop_append_of_le_length hfront]
  split
  · rw [List.tail_drop]
    congr 1
    omega
  · congr 1
    omega

theorem foldl_push_back (cap_bytes : Nat) (bytes chunk : List UInt8) :
    chunk.foldl (push_back cap_bytes) (bytes.drop (bytes.length - cap_bytes)) =
      (bytes ++ chunk).drop ((bytes ++ chunk).length - cap_bytes) := by
  induction chunk generalizing bytes with
  | nil => rw [List.append_nil, List.foldl_nil]
  | cons byte chunk ih =>
    rw [List.foldl_cons, push_back_drop, ih, List.append_assoc]
    rfl

/-- The beginning that is kept grows up to the cap. -/
theorem take_chunk (cap_bytes : Nat) (bytes chunk : List UInt8) :
    (bytes ++ chunk).take cap_bytes =
      if (bytes.take cap_bytes).length < cap_bytes then
        bytes.take cap_bytes ++
          chunk.take (min (cap_bytes - (bytes.take cap_bytes).length) chunk.length)
      else bytes.take cap_bytes := by
  rw [List.take_append, List.length_take]
  split
  · rw [Nat.min_eq_right (by omega : bytes.length ≤ cap_bytes), ← List.take_eq_take_min]
  · rw [Nat.sub_eq_zero_of_le (by omega), List.take_zero, List.append_nil]

theorem push_collected (cap_bytes : Nat) (bytes chunk : List UInt8) :
    (collected cap_bytes bytes).push chunk = collected cap_bytes (bytes ++ chunk) := by
  unfold push collected
  rcases hchunk : chunk.isEmpty with _ | _
  · have hsuffix : (if 0 < cap_bytes then
        chunk.foldl (push_back cap_bytes) (bytes.drop (bytes.length - cap_bytes))
        else bytes.drop (bytes.length - cap_bytes)) =
        (bytes ++ chunk).drop ((bytes ++ chunk).length - cap_bytes) := by
      rcases Nat.eq_zero_or_pos cap_bytes with rfl | hpos
      · simp
      · rw [if_pos hpos, foldl_push_back]
    dsimp only
    rw [hsuffix, take_chunk, List.length_append]
    rfl
  · obtain rfl := List.isEmpty_iff.mp hchunk
    rw [List.append_nil]
    rfl

theorem foldl_push (cap_bytes : Nat) (bytes : List UInt8) (chunks : List (List UInt8)) :
    chunks.foldl push (collected cap_bytes bytes) = collected cap_bytes (bytes ++ chunks.flatten) := by
  induction chunks generalizing bytes with
  | nil => simp
  | cons chunk chunks ih =>
    rw [List.foldl_cons, push_collected, ih, List.flatten_cons, List.append_assoc]

end TruncatingCollector

/-! ## What is read of the kept bytes -/

/-- What is read of any number of first bytes begins with a part of the text that is short of them
by three bytes at most, and what is read of the other bytes ends with such a part. -/
theorem read_parts (text : Text) (n : Nat) (hn : n ≤ Text.len text) :
    (∃ head rest junk, text = head ++ rest ∧
      from_utf8_lossy ((encode text).take n) = head ++ junk ∧ n ≤ Text.len head + 3) ∧
    ∃ front tail junk, text = front ++ tail ∧
      from_utf8_lossy ((encode text).drop n) = junk ++ tail ∧
      Text.len text ≤ n + Text.len tail + 3 := by
  have hlen (t : Text) : (encode t).length = Text.len t := length_encode t
  obtain ⟨head, p, q, tail, htake, hdrop, hparts⟩ := exists_cut text n (hn.trans (hlen text).ge)
  have hhead := congrArg List.length htake
  have htail := congrArg List.length hdrop
  rw [List.length_take, List.length_append, hlen, hlen, Nat.min_eq_left hn] at hhead
  rw [List.length_drop, List.length_append, hlen, hlen] at htail
  have hread := from_utf8_lossy_encode tail []
  rw [List.append_nil] at hread
  rcases hparts with ⟨rfl, rfl, htext⟩ | ⟨c, hc, hp, hq, htext⟩
  · refine ⟨⟨head, tail, [], htext, ?_, by simp at hhead; omega⟩,
      ⟨head, tail, [], htext, ?_, by simp at htail; omega⟩⟩
    · rw [htake, from_utf8_lossy_encode]
      rfl
    · rw [hdrop, List.nil_append, hread, List.nil_append]
      exact List.append_nil tail
  · have hsize := congrArg List.length hc
    rw [String.length_utf8EncodeChar, List.length_append] at hsize
    have hfour := c.utf8Size_le_four
    have hppos := List.length_pos_iff.mpr hp
    have hqpos := List.length_pos_iff.mpr hq
    refine ⟨⟨head, c :: tail, [REPLACEMENT_CHARACTER], htext, ?_, by omega⟩,
      ⟨head ++ [c], tail, List.replicate q.length REPLACEMENT_CHARACTER, ?_, ?_, by omega⟩⟩
    · rw [htake, from_utf8_lossy_encode, from_utf8_lossy_beginning hc hp hq]
    · rw [htext, List.append_assoc]
      rfl
    · rw [hdrop, from_utf8_lossy_end hc hp, hread]
      congr 1
      exact List.append_nil tail

/-! ## The slices of a part -/

theorem pick_prefix_slice_eq {input : Text} {left_budget : Nat}
    (h : left_budget < Text.len input) : pick_prefix_slice input left_budget =
      (Text.cut (pick_prefix_end input left_budget) input).map Prod.fst := by
  unfold pick_prefix_slice pick_prefix_end
  rw [if_neg (Nat.not_le.mpr h)]
  rcases (Text.cut left_budget input).bind fun p => rfind '\n' p.1 with _ | idx
  · unfold truncate_on_boundary
    dsimp only
    rw [if_neg (Nat.not_le.mpr h), truncate_on_boundary_len_eq (Nat.le_of_lt h)]
  · rfl

theorem pick_suffix_slice_eq {input : Text} {right_budget : Nat}
    (h : right_budget < Text.len input) : pick_suffix_slice input right_budget =
      (Text.cut (pick_suffix_start input right_budget) input).map Prod.snd := by
  unfold pick_suffix_slice pick_suffix_start
  rw [if_neg (Nat.not_le.mpr h)]
  dsimp only
  rcases (Text.cut (Text.len input - right_budget) input).bind fun p => find '\n' p.2 with _ | idx
  · rfl
  · rfl

/-- The slice of a beginning that reaches the budget is the kept beginning of the text. -/
theorem prefix_slice_of_part {head : Text} (rest junk : Text) {left_budget : Nat}
    (h : left_budget < Text.len head) : ∃ slice after,
      pick_prefix_slice (head ++ junk) left_budget = some slice ∧
      Text.cut (pick_prefix_end (head ++ rest) left_budget) (head ++ rest) = some (slice, after) ∧
      Text.len slice = pick_prefix_end (head ++ rest) left_budget ∧
      Text.len slice ≤ left_budget := by
  have hle := Nat.le_of_lt h
  obtain ⟨hend, hboundary⟩ := pick_prefix_end_boundary hle
  obtain ⟨⟨slice, after⟩, hcut⟩ := Option.isSome_iff_exists.mp hboundary
  have hlen : Text.len slice = pick_prefix_end head left_budget := (Text.cut_len hcut).1
  refine ⟨slice, after ++ rest, ?_, ?_, ?_, hlen.trans_le hend⟩
  · rw [pick_prefix_slice_eq (by rw [Text.len_append]; omega), pick_prefix_end_append hle,
      Text.cut_append_left (hend.trans hle), hcut]
    rfl
  · rw [pick_prefix_end_append hle, Text.cut_append_left (hend.trans hle), hcut]
    rfl
  · rw [pick_prefix_end_append hle, hlen]

/-- The slice of an end that reaches the budget is the kept end of the text. -/
theorem suffix_slice_of_part {tail : Text} (front junk : Text) {right_budget : Nat}
    (h : right_budget < Text.len tail) : ∃ slice before,
      pick_suffix_slice (junk ++ tail) right_budget = some slice ∧
      Text.cut (pick_suffix_start (front ++ tail) right_budget) (front ++ tail) =
        some (before, slice) ∧
      Text.len slice + pick_suffix_start (front ++ tail) right_budget = Text.len (front ++ tail) ∧
      Text.len slice ≤ right_budget := by
  have hle := Nat.le_of_lt h
  obtain ⟨hstart, hend, hboundary⟩ := pick_suffix_start_boundary tail right_budget
  obtain ⟨⟨before, slice⟩, hcut⟩ := Option.isSome_iff_exists.mp hboundary
  have hlen : Text.len before = pick_suffix_start tail right_budget ∧
      Text.len before + Text.len slice = Text.len tail := Text.cut_len hcut
  refine ⟨slice, front ++ before, ?_, ?_, ?_, by omega⟩
  · rw [pick_suffix_slice_eq (by rw [Text.len_append]; omega), pick_suffix_start_append hle,
      Text.cut_append_right, hcut]
    rfl
  · rw [pick_suffix_start_append hle, Text.cut_append_right, hcut]
    rfl
  · rw [pick_suffix_start_append hle, Text.len_append]
    omega

/-! ## The rounds -/

theorem six_le_marker (tokens : Nat) : 6 ≤ Text.len (marker tokens) := by
  unfold marker
  rw [Text.len_append, Text.len_append]
  have h : Text.len "…".toList = 3 := rfl
  have h' : Text.len " tokens truncated…".toList = 20 := rfl
  omega

/-- The parts of the text that the kept bytes are read as, and what is read beside them. -/
structure Kept (text : Text) (cap_bytes : Nat) (prefix_str suffix_str : Text) : Prop where
  front : ∃ head rest junk, text = head ++ rest ∧ prefix_str = head ++ junk ∧
    cap_bytes ≤ Text.len head + 3
  back : ∃ front tail junk, text = front ++ tail ∧ suffix_str = junk ++ tail ∧
    cap_bytes ≤ Text.len tail + 3

theorem Kept.slices {text prefix_str suffix_str : Text} {cap_bytes : Nat}
    (h : Kept text cap_bytes prefix_str suffix_str) (hlong : cap_bytes < Text.len text)
    (guess_tokens left_budget right_budget : Nat)
    (hroom : left_budget + right_budget + 6 ≤ cap_bytes) :
    ∃ prefix_slice suffix_slice, pick_prefix_slice prefix_str left_budget = some prefix_slice ∧
      pick_suffix_slice suffix_str right_budget = some suffix_slice ∧
      Text.len prefix_slice + Text.len suffix_slice = pick_prefix_end text left_budget +
        (Text.len text - pick_suffix_start text right_budget) ∧
      pick_prefix_end text left_budget ≤ pick_suffix_start text right_budget ∧
      around text guess_tokens (pick_prefix_end text left_budget)
          (pick_suffix_start text right_budget) =
        some (prefix_slice ++ marker guess_tokens ++ ['\n'] ++ suffix_slice) := by
  obtain ⟨⟨head, rest, junk, htext, rfl, hhead⟩, front, tail, junk', htext', rfl, htail⟩ := h
  obtain ⟨prefix_slice, after, hbegins, hcut, hlen, hle⟩ :=
    prefix_slice_of_part rest junk (by omega : left_budget < Text.len head)
  obtain ⟨suffix_slice, before, hsuffix, hcut', hlen', hle'⟩ :=
    suffix_slice_of_part front junk' (by omega : right_budget < Text.len tail)
  rw [← htext] at hcut hlen
  rw [← htext'] at hcut' hlen'
  refine ⟨prefix_slice, suffix_slice, hbegins, hsuffix, by omega, by omega, ?_⟩
  unfold around
  rw [hcut, hcut']
  rfl

/-- The rounds over what is kept are the rounds over the whole text. -/
theorem rounds_eq {text prefix_str suffix_str : Text} (self : TruncatingCollector)
    (h : Kept text self.cap_bytes prefix_str suffix_str)
    (htotal : self.total_bytes = Text.len text) (hlong : self.cap_bytes < Text.len text)
    (n guess_tokens : Nat) :
    ∃ out, rounds text self.cap_bytes n guess_tokens = some out ∧
      self.rounds prefix_str suffix_str n guess_tokens = some out := by
  induction n generalizing guess_tokens with
  | zero =>
    have hmarker := six_le_marker guess_tokens
    unfold rounds TruncatingCollector.rounds
    dsimp only
    rw [htotal]
    generalize hkeep : self.cap_bytes - Text.len (marker guess_tokens) = keep_budget
    split
    · exact ⟨_, rfl, rfl⟩
    · obtain ⟨prefix_slice, suffix_slice, hbegins, hsuffix, -, -, haround⟩ := h.slices hlong
        guess_tokens (keep_budget / 2) (keep_budget - keep_budget / 2) (by omega)
      rw [haround, hbegins, hsuffix]
      exact ⟨_, rfl, rfl⟩
  | succ n ih =>
    have hmarker := six_le_marker guess_tokens
    unfold rounds TruncatingCollector.rounds
    dsimp only
    rw [htotal]
    generalize hkeep : self.cap_bytes - Text.len (marker guess_tokens) = keep_budget
    split
    · exact ⟨_, rfl, rfl⟩
    · obtain ⟨prefix_slice, suffix_slice, hbegins, hsuffix, hkept, hle, haround⟩ := h.slices hlong
        guess_tokens (keep_budget / 2) (keep_budget - keep_budget / 2) (by omega)
      rw [hbegins, hsuffix, Nat.max_eq_right hle, haround]
      dsimp only [Option.bind_eq_bind, Option.bind_some]
      rw [hkept]
      split
      · exact ⟨_, rfl, rfl⟩
      · exact ih _

/-! ## Streaming and one cut -/

/-- For every text, every way to cut its bytes into chunks and every cap, the collector gives the
text and the token count of `truncate_middle`, and neither panics. -/
theorem streaming_truncation_is_one_cut (text : Text) (chunks : List (List UInt8)) (cap_bytes : Nat)
    (h : chunks.flatten = encode text) :
    ∃ result, truncate_middle text cap_bytes = some result ∧
      (chunks.foldl TruncatingCollector.push (.new cap_bytes)).finalize = some result := by
  have hlen : (encode text).length = Text.len text := length_encode text
  have hnew : TruncatingCollector.new cap_bytes = .collected cap_bytes [] := by
    unfold TruncatingCollector.new TruncatingCollector.collected
    simp
  rw [hnew, TruncatingCollector.foldl_push, List.nil_append, h]
  unfold truncate_middle TruncatingCollector.finalize TruncatingCollector.collected
  dsimp only
  rw [hlen]
  by_cases hfits : Text.len text ≤ cap_bytes
  · rw [if_pos hfits]
    refine ⟨_, rfl, ?_⟩
    by_cases hzero : cap_bytes = 0
    · have hempty : Text.len text = 0 := by omega
      rcases text with _ | ⟨c, text⟩
      · rw [if_pos hzero, if_pos hempty]
      · rw [Text.len_cons] at hempty
        exact absurd hempty (by have := c.utf8Size_pos; omega)
    · have hread := from_utf8_lossy_encode text []
      rw [List.append_nil] at hread
      rw [if_neg hzero, if_pos hfits, List.take_of_length_le (hlen.trans_le hfits), hread]
      simp [from_utf8_lossy, read_lossy]
  · rw [if_neg hfits]
    by_cases hzero : cap_bytes = 0
    · rw [if_pos hzero, if_pos hzero, if_neg (by omega)]
      exact ⟨_, rfl, rfl⟩
    · rw [if_neg hzero, if_neg hzero, if_neg hfits]
      obtain ⟨hfront, -⟩ := read_parts text cap_bytes (by omega)
      obtain ⟨-, front, tail, junk, htext, hread, hback⟩ :=
        read_parts text (Text.len text - cap_bytes) (by omega)
      have hkept : Kept text cap_bytes (from_utf8_lossy ((encode text).take cap_bytes))
          (from_utf8_lossy ((encode text).drop (Text.len text - cap_bytes))) :=
        ⟨hfront, front, tail, junk, htext, hread, by omega⟩
      obtain ⟨out, hone, hstream⟩ := rounds_eq
        ⟨cap_bytes, Text.len text, (encode text).take cap_bytes,
          (encode text).drop (Text.len text - cap_bytes)⟩
        hkept rfl (Nat.not_le.mp hfits) 4 (tokens_of_bytes (Text.len text))
      rw [hone, hstream]
      exact ⟨_, rfl, rfl⟩

/-- Cuts inside of characters. -/
theorem chunks_cut_inside_of_characters :
    ∃ result, truncate_middle (List.replicate 20 'é') 32 = some result ∧
      ([[0xC3], (List.replicate 19 [0xA9, 0xC3]).flatten, [0xA9]].foldl TruncatingCollector.push
        (.new 32)).finalize = some result :=
  streaming_truncation_is_one_cut (List.replicate 20 'é')
    [[0xC3], (List.replicate 19 [0xA9, 0xC3]).flatten, [0xA9]] 32 (by decide)

end Ecode.session_manager
