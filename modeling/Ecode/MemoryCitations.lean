-- The citations of memories in what the model says: the parser that takes them out while the text
-- streams in (tui/src/memory_citation.rs), and the one for the history
-- (core/src/memories/citations.rs).
import Ecode.Searching
import Ecode.TextCuts

namespace Ecode.memory_citation

open searching

/-! ## The parser -/

def CITATION_OPEN : Text := "<oai-mem-citation>".toList

def CITATION_CLOSE : Text := "</oai-mem-citation>".toList

structure MemoryCitationChunk where
  visible_text : Text
  citations : List Text
  deriving DecidableEq

structure MemoryCitationParser where
  pending : Text
  active_citation : Text
  inside_citation : Bool
  deriving DecidableEq

def MemoryCitationParser.default : MemoryCitationParser :=
  { pending := [], active_citation := [], inside_citation := false }

/-- `str::find` of a text: the byte where it first stands. -/
def find (text pattern : Text) : Option Nat :=
  (split_first pattern text).map fun p => Text.len p.1

/-- A slice up to a byte. There is none when the byte is inside a character. -/
def slice_to (text : Text) (n : Nat) : Option Text := (Text.cut n text).map Prod.fst

/-- A slice from a byte on. -/
def slice_from (text : Text) (n : Nat) : Option Text := (Text.cut n text).map Prod.snd

/-- The lengths up to `max_overlap` from the greatest on. -/
def find_overlap (input pattern : Text) : Nat → Option Nat
  | 0 => some 0
  | len + 1 =>
    match slice_to pattern (len + 1) with
    | none => none
    | some beginning =>
      if Text.ends_with input beginning then some (len + 1) else find_overlap input pattern len

def longest_suffix_prefix (input pattern : Text) : Option Nat :=
  let max_overlap := min (Text.len input) (Text.len pattern - 1)
  find_overlap input pattern max_overlap

theorem slice_from_length {text rest : Text} {n : Nat} (h : slice_from text n = some rest)
    (hn : 0 < n) : rest.length < text.length := by
  obtain ⟨p, hp, rfl⟩ := Option.map_eq_some_iff.mp h
  have hparts := Text.cut_append hp
  have hne : p.1 ≠ [] := by
    intro hnil
    have hlen := (Text.cut_len hp).1
    rw [hnil] at hlen
    simp [Text.len] at hlen
    omega
  have hpos := List.length_pos_iff.mpr hne
  rw [← hparts, List.length_append]
  omega

namespace MemoryCitationParser

/-- The loop of `push_str` on what is left of the input, none when a slice is not at the boundary
of a character. -/
def push_loop (self : MemoryCitationParser) (visible_text : Text) (citations : List Text)
    (rest : Text) : Option (MemoryCitationChunk × MemoryCitationParser) :=
  if rest = [] then some (⟨visible_text, citations⟩, self)
  else if self.inside_citation then
    match find rest CITATION_CLOSE with
    | some close_idx =>
      match slice_to rest close_idx, _h : slice_from rest (close_idx + Text.len CITATION_CLOSE) with
      | some inner, some rest =>
        push_loop { self with active_citation := [], inside_citation := false } visible_text
          (citations ++ [self.active_citation ++ inner]) rest
      | _, _ => none
    | none => do
      let overlap ← longest_suffix_prefix rest CITATION_CLOSE
      let split_at := Text.len rest - overlap
      let more ← slice_to rest split_at
      let held ← slice_from rest split_at
      some (⟨visible_text, citations⟩,
        { self with
          active_citation := self.active_citation ++ more
          pending := self.pending ++ held })
  else
    match find rest CITATION_OPEN with
    | some open_idx =>
      match slice_to rest open_idx, _h : slice_from rest (open_idx + Text.len CITATION_OPEN) with
      | some before, some rest =>
        push_loop { self with inside_citation := true } (visible_text ++ before) citations rest
      | _, _ => none
    | none => do
      let overlap ← longest_suffix_prefix rest CITATION_OPEN
      let split_at := Text.len rest - overlap
      let more ← slice_to rest split_at
      let held ← slice_from rest split_at
      some (⟨visible_text ++ more, citations⟩, { self with pending := self.pending ++ held })
termination_by rest.length
decreasing_by
  · exact slice_from_length _h (Nat.lt_of_lt_of_le (by decide) (Nat.le_add_left _ _))
  · exact slice_from_length _h (Nat.lt_of_lt_of_le (by decide) (Nat.le_add_left _ _))

def push_str (self : MemoryCitationParser) (chunk : Text) :
    Option (MemoryCitationChunk × MemoryCitationParser) :=
  push_loop { self with pending := [] } [] [] (self.pending ++ chunk)

def finish (self : MemoryCitationParser) : Option (MemoryCitationChunk × MemoryCitationParser) := do
  let (out, self) ← self.push_str []
  if self.inside_citation then
    some ({ out with citations := out.citations ++ [self.active_citation ++ self.pending] },
      { pending := [], active_citation := [], inside_citation := false })
  else if self.pending ≠ [] then
    some ({ out with visible_text := out.visible_text ++ self.pending },
      { self with pending := [] })
  else some (out, self)

end MemoryCitationParser

def strip_memory_citations (text : Text) : Option MemoryCitationChunk := do
  let (out, parser) ← MemoryCitationParser.default.push_str text
  let (tail, _) ← parser.finish
  some ⟨out.visible_text ++ tail.visible_text, out.citations ++ tail.citations⟩

/-! ## The parser of the history -/

namespace core

def OPEN_TAG : Text := "<oai-mem-citation>".toList

def CLOSE_TAG : Text := "</oai-mem-citation>".toList

def ROLLOUT_IDS_OPEN : Text := "<rollout_ids>".toList

def ROLLOUT_IDS_CLOSE : Text := "</rollout_ids>".toList

section

-- `Uuid::parse_str`.
variable {Uuid : Type} [DecidableEq Uuid] (parse_str : Text → Option Uuid)

def parse_rollout_ids (inner : Text) : Option (List Uuid) :=
  match find inner ROLLOUT_IDS_OPEN with
  | none => some []
  | some open_rel => do
    let ids ← slice_from inner (open_rel + Text.len ROLLOUT_IDS_OPEN)
    match find ids ROLLOUT_IDS_CLOSE with
    | none => some []
    | some close_rel => do
      let ids ← slice_to ids close_rel
      some ((Text.lines ids).filterMap fun line => parse_str line.trim)

/-- The ids that were not seen before, at the end. -/
def push_new (rollout_ids ids : List Uuid) : List Uuid :=
  ids.foldl (fun seen id => if id ∈ seen then seen else seen ++ [id]) rollout_ids

/-- The loop on what is left of the text. -/
def strip_loop (cleaned : Text) (rollout_ids : List Uuid) (rest : Text) :
    Option (Text × List Uuid) :=
  match find rest OPEN_TAG with
  | none => some (cleaned ++ rest, rollout_ids)
  | some open_rel =>
    match slice_to rest open_rel, _h : slice_from rest (open_rel + Text.len OPEN_TAG) with
    | some before, some after =>
      match find after CLOSE_TAG with
      | none => some (cleaned ++ before, rollout_ids)
      | some close_rel =>
        match slice_to after close_rel, _h' : slice_from after (close_rel + Text.len CLOSE_TAG) with
        | some inner, some rest =>
          match parse_rollout_ids parse_str inner with
          | none => none
          | some ids => strip_loop (cleaned ++ before) (push_new rollout_ids ids) rest
        | _, _ => none
    | _, _ => none
termination_by rest.length
decreasing_by
  exact Nat.lt_trans (slice_from_length _h' (Nat.lt_of_lt_of_le (by decide) (Nat.le_add_left _ _)))
    (slice_from_length _h (Nat.lt_of_lt_of_le (by decide) (Nat.le_add_left _ _)))

def strip_memory_citations (text : Text) : Option (Text × List Uuid) :=
  strip_loop parse_str [] [] text

end

end core

/-! ## The slices -/

theorem slices_at (before after : Text) :
    slice_to (before ++ after) (Text.len before) = some before ∧
      slice_from (before ++ after) (Text.len before) = some after := by
  have hcut := Text.cut_append_right before after 0
  rw [Nat.add_zero, Text.cut_zero] at hcut
  simp [slice_to, slice_from, hcut]

/-- The slices before and after the first place of a text. -/
theorem slices_of_find {rest pattern : Text} {p : Text × Text}
    (h : split_first pattern rest = some p) :
    slice_to rest (Text.len p.1) = some p.1 ∧
      slice_from rest (Text.len p.1 + Text.len pattern) = some p.2 := by
  have hrest := (isFirst_of_split_first h).1
  constructor
  · rw [hrest]
    exact (slices_at _ _).1
  · rw [hrest, ← Text.len_append, ← List.append_assoc]
    exact (slices_at _ _).2

theorem len_ascii {t : Text} (h : ∀ c ∈ t, c.utf8Size = 1) : Text.len t = t.length := by
  induction t with
  | nil => rfl
  | cons c t ih =>
    rw [Text.len_cons, h c List.mem_cons_self, ih fun c hc => h c (List.mem_cons_of_mem _ hc),
      List.length_cons, Nat.add_comm]

/-- Of a pattern in ASCII every byte is a boundary. -/
theorem slice_to_ascii {pattern : Text} (h : ∀ c ∈ pattern, c.utf8Size = 1) {n : Nat}
    (hn : n ≤ pattern.length) : slice_to pattern n = some (pattern.take n) := by
  have hlen : Text.len (pattern.take n) = n := by
    rw [len_ascii fun c hc => h c (List.mem_of_mem_take hc), List.length_take_of_le hn]
  have hslice := (slices_at (pattern.take n) (pattern.drop n)).1
  rwa [hlen, List.take_append_drop] at hslice

/-- By induction on the greatest length that is tried: those above the end that is held back do not
match. -/
theorem find_overlap_eq {input pattern : Text} (h : ∀ c ∈ pattern, c.utf8Size = 1)
    (hpattern : pattern ≠ []) {n : Nat} (hheld : (hold pattern input).2.length ≤ n)
    (hn : n < pattern.length) :
    find_overlap input pattern n = some (hold pattern input).2.length := by
  induction n with
  | zero => rw [Nat.le_zero.mp hheld, find_overlap]
  | succ n ih =>
    have htake : (pattern.take (n + 1)).length = n + 1 := List.length_take_of_le (Nat.le_of_lt hn)
    rw [find_overlap, slice_to_ascii h (Nat.le_of_lt hn)]
    by_cases hends : Text.ends_with input (pattern.take (n + 1)) = true
    · have hlongest : n + 1 ≤ (hold pattern input).2.length := by
        rw [← htake]
        apply hold_longest
        exact ⟨List.isSuffixOf_iff_suffix.mp hends, List.take_prefix _ _, by rw [htake]; exact hn⟩
      simp only [hends, ↓reduceIte]
      rw [Nat.le_antisymm hheld hlongest]
    · simp only [hends, Bool.false_eq_true, ↓reduceIte]
      apply ih _ (Nat.lt_of_succ_lt hn)
      by_contra hlonger
      have hlength : (hold pattern input).2.length = n + 1 := by omega
      obtain ⟨hend, hbegins, -⟩ := hold_begins hpattern input
      rw [ List.prefix_iff_eq_take, hlength] at hbegins
      rw [hbegins] at hend
      exact hends (List.isSuffixOf_iff_suffix.mpr hend)

/-- The overlap is the end that is held back. -/
theorem longest_suffix_prefix_eq {input pattern : Text} (h : ∀ c ∈ pattern, c.utf8Size = 1)
    (hpattern : pattern ≠ []) :
    longest_suffix_prefix input pattern = some (Text.len (hold pattern input).2) := by
  obtain ⟨⟨before, hinput⟩, hbegins, hlength⟩ := hold_begins hpattern input
  have hascii : ∀ c ∈ (hold pattern input).2, c.utf8Size = 1 := fun c hc => h c (hbegins.mem hc)
  have hshort : Text.len (hold pattern input).2 ≤ Text.len input := by
    conv => rhs; rw [← hinput, Text.len_append]
    exact Nat.le_add_left _ _
  rw [len_ascii hascii] at hshort ⊢
  apply find_overlap_eq h hpattern
  · rw [len_ascii h]
    omega
  · rw [len_ascii h]
    omega

/-- Where no place is found the input is sliced before the end that is held back. -/
theorem slices_of_hold (pattern rest : Text) :
    slice_to rest (Text.len rest - Text.len (hold pattern rest).2) =
        some (hold pattern rest).1 ∧
      slice_from rest (Text.len rest - Text.len (hold pattern rest).2) =
        some (hold pattern rest).2 := by
  have hrest := hold_append_self pattern rest
  have hlen : Text.len rest - Text.len (hold pattern rest).2 = Text.len (hold pattern rest).1 := by
    have hsum := congrArg Text.len hrest
    rw [Text.len_append] at hsum
    omega
  rw [hlen]
  have hslices := slices_at (hold pattern rest).1 (hold pattern rest).2
  rwa [hrest] at hslices

/-! ## The parser on characters -/

/-- The tag that is looked for. -/
def tag (inside : Bool) : Text := if inside then CITATION_CLOSE else CITATION_OPEN

/-- What of a text without the tag is visible, and the citation after it. -/
def read (inside : Bool) (active text : Text) : Text × Text :=
  if inside then ([], active ++ text) else (text, active)

/-- What the tag ends, and the citation after it. -/
def toggle (inside : Bool) (active : Text) : List Text × Text :=
  if inside then ([active], []) else ([], active)

theorem tag_ne_nil (inside : Bool) : tag inside ≠ [] := by
  cases inside <;> decide

theorem tag_ascii (inside : Bool) : ∀ c ∈ tag inside, c.utf8Size = 1 := by
  have hall : (tag inside).all (fun c => c.utf8Size == 1) = true := by cases inside <;> rfl
  simpa using hall

theorem length_after_tag {inside : Bool} {rest : Text} {p : Text × Text}
    (h : split_first (tag inside) rest = some p) : p.2.length < rest.length := by
  have hpos := List.length_pos_iff.mpr (tag_ne_nil inside)
  rw [(isFirst_of_split_first h).1]
  simp only [List.length_append]
  omega

/-- What comes of a text that the parser reads to its end. -/
def scan (inside : Bool) (active rest : Text) : MemoryCitationChunk × MemoryCitationParser :=
  match _h : split_first (tag inside) rest with
  | none =>
    let held := hold (tag inside) rest
    let now := read inside active held.1
    (⟨now.1, []⟩, ⟨held.2, now.2, inside⟩)
  | some p =>
    let now := read inside active p.1
    let next := toggle inside now.2
    let later := scan (!inside) next.2 p.2
    (⟨now.1 ++ later.1.visible_text, next.1 ++ later.1.citations⟩, later.2)
termination_by rest.length
decreasing_by exact length_after_tag _h

def MemoryCitationChunk.append (a b : MemoryCitationChunk) : MemoryCitationChunk :=
  ⟨a.visible_text ++ b.visible_text, a.citations ++ b.citations⟩

/-- What comes of more text after the parser has read some. -/
def then_scan (r : MemoryCitationChunk × MemoryCitationParser) (more : Text) :
    MemoryCitationChunk × MemoryCitationParser :=
  let later := scan r.2.inside_citation r.2.active_citation (r.2.pending ++ more)
  (r.1.append later.1, later.2)

theorem scan_of_none {inside : Bool} {active rest : Text}
    (h : split_first (tag inside) rest = none) :
    scan inside active rest =
      (⟨(read inside active (hold (tag inside) rest).1).1, []⟩,
        ⟨(hold (tag inside) rest).2, (read inside active (hold (tag inside) rest).1).2,
          inside⟩) := by
  rw [scan]
  split
  · rfl
  · rename_i hsome
    rw [h] at hsome
    cases hsome

theorem scan_of_some {inside : Bool} {active rest : Text} {p : Text × Text}
    (h : split_first (tag inside) rest = some p) :
    scan inside active rest =
      (MemoryCitationChunk.append
          ⟨(read inside active p.1).1, (toggle inside (read inside active p.1).2).1⟩
          (scan (!inside) (toggle inside (read inside active p.1).2).2 p.2).1,
        (scan (!inside) (toggle inside (read inside active p.1).2).2 p.2).2) := by
  rw [scan]
  split
  · rename_i hnone
    rw [h] at hnone
    cases hnone
  · rename_i q hq
    obtain rfl : p = q := Option.some.inj (h.symm.trans hq)
    rfl

theorem read_append (inside : Bool) (active a b : Text) :
    read inside active (a ++ b) =
      ((read inside active a).1 ++ (read inside (read inside active a).2 b).1,
        (read inside (read inside active a).2 b).2) := by
  cases inside <;> simp [read]

/-- Where the input is cut makes no difference: what was held back is read again with the rest. -/
theorem scan_append (inside : Bool) (active a b : Text) :
    scan inside active (a ++ b) = then_scan (scan inside active a) b := by
  induction hn : a.length using Nat.strong_induction_on generalizing inside active a with
  | h n ih =>
    subst hn
    cases hfirst : split_first (tag inside) a with
    | some p =>
      rw [scan_of_some hfirst, scan_of_some (split_first_append hfirst b),
        ih _ (length_after_tag hfirst) _ _ _ rfl]
      simp [then_scan, MemoryCitationChunk.append]
    | none =>
      rw [scan_of_none hfirst, then_scan]
      have hshift := split_first_hold hfirst b
      cases hlater : split_first (tag inside) ((hold (tag inside) a).2 ++ b) with
      | none =>
        rw [hlater] at hshift
        rw [scan_of_none hshift, scan_of_none hlater, hold_append, read_append]
        rfl
      | some p =>
        rw [hlater] at hshift
        rw [scan_of_some hshift, scan_of_some hlater, read_append]
        simp [MemoryCitationChunk.append]

theorem scan_nil (inside : Bool) (active : Text) :
    scan inside active [] = (⟨[], []⟩, ⟨[], active, inside⟩) := by
  have hnone : split_first (tag inside) [] = none := if_neg (tag_ne_nil inside)
  rw [scan_of_none hnone]
  cases inside <;> simp [read, hold]

namespace MemoryCitationParser

theorem find_tag (rest : Text) (inside : Bool) :
    find rest (tag inside) = (split_first (tag inside) rest).map fun p => Text.len p.1 := rfl

/-- The loop goes on behind a tag. -/
theorem push_loop_of_some {inside : Bool} {active rest : Text} {p : Text × Text}
    (hfirst : split_first (tag inside) rest = some p) (visible_text : Text)
    (citations : List Text) :
    push_loop ⟨[], active, inside⟩ visible_text citations rest =
      push_loop ⟨[], (toggle inside (read inside active p.1).2).2, !inside⟩
        (visible_text ++ (read inside active p.1).1)
        (citations ++ (toggle inside (read inside active p.1).2).1) p.2 := by
  obtain ⟨hto, hfrom⟩ := slices_of_find hfirst
  have hne : rest ≠ [] := by
    rintro rfl
    exact absurd (length_after_tag hfirst) (Nat.not_lt_zero _)
  have hfind := find_tag rest inside
  rw [hfirst, Option.map_some] at hfind
  rw [push_loop, if_neg hne]
  cases inside with
  | true =>
    have hclose : find rest CITATION_CLOSE = some (Text.len p.1) := hfind
    simp only [↓reduceIte, hclose]
    split
    · rename_i inner after hinner hafter
      obtain rfl : p.1 = inner := Option.some.inj (hto.symm.trans hinner)
      obtain rfl : p.2 = after := Option.some.inj (hfrom.symm.trans hafter)
      simp [read, toggle]
    · rename_i hnone
      exact absurd hfrom (hnone _ _ hto)
  | false =>
    have hopen : find rest CITATION_OPEN = some (Text.len p.1) := hfind
    simp only [Bool.false_eq_true, ↓reduceIte, hopen]
    split
    · rename_i before after hbefore hafter
      obtain rfl : p.1 = before := Option.some.inj (hto.symm.trans hbefore)
      obtain rfl : p.2 = after := Option.some.inj (hfrom.symm.trans hafter)
      simp [read, toggle]
    · rename_i hnone
      exact absurd hfrom (hnone _ _ hto)

/-- Without a tag the loop ends, and what may begin one is held. -/
theorem push_loop_of_none {inside : Bool} {active rest : Text} (hne : rest ≠ [])
    (hfirst : split_first (tag inside) rest = none) (visible_text : Text)
    (citations : List Text) :
    push_loop ⟨[], active, inside⟩ visible_text citations rest =
      some (⟨visible_text ++ (read inside active (hold (tag inside) rest).1).1, citations⟩,
        ⟨(hold (tag inside) rest).2, (read inside active (hold (tag inside) rest).1).2,
          inside⟩) := by
  obtain ⟨hto, hfrom⟩ := slices_of_hold (tag inside) rest
  have hoverlap : longest_suffix_prefix rest (tag inside) =
      some (Text.len (hold (tag inside) rest).2) :=
    longest_suffix_prefix_eq (tag_ascii inside) (tag_ne_nil inside)
  have hfind := find_tag rest inside
  rw [hfirst, Option.map_none] at hfind
  rw [push_loop, if_neg hne]
  cases inside with
  | true =>
    have hclose : find rest CITATION_CLOSE = none := hfind
    simp only [↓reduceIte, hclose]
    rw [show CITATION_CLOSE = tag true from rfl, hoverlap, Option.bind_eq_bind,
      Option.bind_some, hto, hfrom]
    simp [read]
  | false =>
    have hopen : find rest CITATION_OPEN = none := hfind
    simp only [Bool.false_eq_true, ↓reduceIte, hopen]
    rw [show CITATION_OPEN = tag false from rfl, hoverlap, Option.bind_eq_bind,
      Option.bind_some, hto, hfrom]
    simp [read]

end MemoryCitationParser

/-- The loop over bytes reads as the parser on characters: none of its slices fails. -/
theorem push_loop_eq {self : MemoryCitationParser} (visible_text : Text) (citations : List Text)
    (rest : Text) (hpending : self.pending = []) :
    self.push_loop visible_text citations rest =
      some (MemoryCitationChunk.append ⟨visible_text, citations⟩
          (scan self.inside_citation self.active_citation rest).1,
        (scan self.inside_citation self.active_citation rest).2) := by
  induction hn : rest.length using Nat.strong_induction_on
    generalizing self visible_text citations rest with
  | h n ih =>
    subst hn
    obtain ⟨pending, active, inside⟩ := self
    obtain rfl : pending = [] := hpending
    by_cases hnil : rest = []
    · subst hnil
      rw [scan_nil, MemoryCitationParser.push_loop]
      simp [MemoryCitationChunk.append]
    cases hfirst : split_first (tag inside) rest with
    | some p =>
      rw [MemoryCitationParser.push_loop_of_some hfirst, scan_of_some hfirst,
        ih _ (length_after_tag hfirst) _ _ _ rfl rfl]
      simp [MemoryCitationChunk.append]
    | none =>
      rw [MemoryCitationParser.push_loop_of_none hnil hfirst, scan_of_none hfirst]
      simp [MemoryCitationChunk.append]

namespace MemoryCitationParser

theorem push_str_eq (self : MemoryCitationParser) (chunk : Text) :
    self.push_str chunk =
      some (scan self.inside_citation self.active_citation (self.pending ++ chunk)) := by
  rw [push_str, push_loop_eq _ _ _ rfl]
  simp [MemoryCitationChunk.append]

/-- What the pieces of a text show, one after the other, and the parser after them. -/
def push_all (self : MemoryCitationParser) :
    List Text → Option (MemoryCitationChunk × MemoryCitationParser)
  | [] => some (⟨[], []⟩, self)
  | piece :: pieces => do
    let (out, self) ← self.push_str piece
    let (rest, self) ← self.push_all pieces
    some (out.append rest, self)

/-- The pieces of a text, and the end. -/
def stream (self : MemoryCitationParser) (pieces : List Text) :
    Option (MemoryCitationChunk × MemoryCitationParser) := do
  let (out, self) ← self.push_all pieces
  let (tail, self) ← self.finish
  some (out.append tail, self)

end MemoryCitationParser

/-! ## Pieces -/

/-- What has been held back gives nothing by itself. -/
theorem scan_settled (inside : Bool) (active a : Text) :
    scan (scan inside active a).2.inside_citation (scan inside active a).2.active_citation
        (scan inside active a).2.pending = (⟨[], []⟩, (scan inside active a).2) := by
  have h := scan_append inside active a []
  rw [List.append_nil, then_scan, List.append_nil] at h
  generalize scan inside active a = r at h ⊢
  generalize scan r.2.inside_citation r.2.active_citation r.2.pending = later at h ⊢
  obtain ⟨hout, hparser⟩ := Prod.ext_iff.mp h
  have hvisible := congrArg MemoryCitationChunk.visible_text hout
  have hcitations := congrArg MemoryCitationChunk.citations hout
  simp only [MemoryCitationChunk.append, List.self_eq_append_right] at hvisible hcitations
  rw [hparser]
  exact Prod.ext (by rw [← hvisible, ← hcitations]) rfl

/-- By induction on the pieces: the parser after some of them is settled. -/
theorem push_all_eq {self : MemoryCitationParser} (pieces : List Text)
    (h : scan self.inside_citation self.active_citation self.pending = (⟨[], []⟩, self)) :
    self.push_all pieces =
      some (scan self.inside_citation self.active_citation (self.pending ++ pieces.flatten)) := by
  induction pieces generalizing self with
  | nil =>
    rw [List.flatten_nil, List.append_nil, h]
    rfl
  | cons piece pieces ih =>
    rw [MemoryCitationParser.push_all, MemoryCitationParser.push_str_eq, List.flatten_cons,
      ← List.append_assoc, scan_append _ _ (self.pending ++ piece), then_scan]
    simp only [Option.bind_eq_bind, Option.bind_some]
    rw [ih (scan_settled _ _ _)]
    rfl

/-- What the end of the text adds. -/
def closing (self : MemoryCitationParser) : MemoryCitationChunk :=
  if self.inside_citation then ⟨[], [self.active_citation ++ self.pending]⟩
  else ⟨self.pending, []⟩

/-- Outside of a citation there is no text of one. -/
theorem scan_idle {inside : Bool} {active : Text} (rest : Text)
    (h : inside = false → active = []) :
    (scan inside active rest).2.inside_citation = false →
      (scan inside active rest).2.active_citation = [] := by
  induction hn : rest.length using Nat.strong_induction_on generalizing inside active rest with
  | h n ih =>
    subst hn
    cases hfirst : split_first (tag inside) rest with
    | some p =>
      rw [scan_of_some hfirst]
      refine ih _ (length_after_tag hfirst) p.2 ?_ rfl
      cases inside <;> simp [toggle]
    | none =>
      rw [scan_of_none hfirst]
      cases inside with
      | true => exact fun hfalse => absurd hfalse (by simp)
      | false => exact h

theorem finish_eq {self : MemoryCitationParser}
    (h : scan self.inside_citation self.active_citation self.pending = (⟨[], []⟩, self))
    (hidle : self.inside_citation = false → self.active_citation = []) :
    self.finish = some (closing self, .default) := by
  rw [MemoryCitationParser.finish, MemoryCitationParser.push_str_eq, List.append_nil, h]
  simp only [Option.bind_eq_bind, Option.bind_some]
  obtain ⟨pending, active, inside⟩ := self
  cases inside with
  | true => rfl
  | false =>
    obtain rfl : active = [] := hidle rfl
    cases pending <;> rfl

/-- All that a text shows. -/
def shown (inside : Bool) (active rest : Text) : MemoryCitationChunk :=
  (scan inside active rest).1.append (closing (scan inside active rest).2)

theorem finish_scan (text : Text) :
    (scan false [] text).2.finish = some (closing (scan false [] text).2, .default) :=
  finish_eq (scan_settled false [] text) (scan_idle text fun _ => rfl)

theorem stream_eq (pieces : List Text) :
    MemoryCitationParser.default.stream pieces =
      some (shown false [] pieces.flatten, .default) := by
  have hall : MemoryCitationParser.default.push_all pieces = some (scan false [] pieces.flatten) :=
    push_all_eq pieces (scan_nil false [])
  rw [MemoryCitationParser.stream, hall]
  simp only [Option.bind_eq_bind, Option.bind_some, finish_scan]
  rfl

theorem strip_memory_citations_eq (text : Text) :
    strip_memory_citations text = some (shown false [] text) := by
  have hpush : MemoryCitationParser.default.push_str text = some (scan false [] text) :=
    MemoryCitationParser.push_str_eq .default text
  rw [strip_memory_citations, hpush]
  simp only [Option.bind_eq_bind, Option.bind_some, finish_scan]
  rfl

/-! ## What is removed -/

/-- A text, what is left of it and what was taken out: from the first open tag to the first close
tag after it, again and again, and to the end where there is none. -/
inductive Removed : Text → Text → List Text → Prop
  | plain {text : Text} : Absent CITATION_OPEN text → Removed text text []
  | unterminated {text before inner : Text} : IsFirst CITATION_OPEN text before inner →
      Absent CITATION_CLOSE inner → Removed text before [inner]
  | region {text before after inner rest visible : Text} {citations : List Text} :
      IsFirst CITATION_OPEN text before after → IsFirst CITATION_CLOSE after inner rest →
      Removed rest visible citations → Removed text (before ++ visible) (inner :: citations)

/-- Outside, the text is shown up to the first open tag. -/
theorem shown_outside {text : Text} {p : Text × Text}
    (h : split_first (tag false) text = some p) :
    shown false [] text = MemoryCitationChunk.append ⟨p.1, []⟩ (shown true [] p.2) := by
  rw [shown, scan_of_some h]
  simp [shown, read, toggle, MemoryCitationChunk.append]

/-- Inside, the text is a citation up to the first close tag. -/
theorem shown_inside {text : Text} {p : Text × Text}
    (h : split_first (tag true) text = some p) :
    shown true [] text = MemoryCitationChunk.append ⟨[], [p.1]⟩ (shown false [] p.2) := by
  rw [shown, scan_of_some h]
  simp [shown, read, toggle, MemoryCitationChunk.append]

theorem shown_to_end {inside : Bool} {text : Text} (h : split_first (tag inside) text = none) :
    shown inside [] text = if inside then ⟨[], [text]⟩ else ⟨text, []⟩ := by
  rw [shown, scan_of_none h]
  cases inside <;> simp [closing, read, MemoryCitationChunk.append, hold_append_self]

theorem removed_shown (text : Text) :
    Removed text (shown false [] text).visible_text (shown false [] text).citations := by
  induction hn : text.length using Nat.strong_induction_on generalizing text with
  | h n ih =>
    subst hn
    cases hopen : split_first (tag false) text with
    | none =>
      rw [shown_to_end hopen]
      exact .plain (absent_of_split_first hopen)
    | some p =>
      have hfirst := isFirst_of_split_first hopen
      rw [shown_outside hopen]
      cases hclose : split_first (tag true) p.2 with
      | none =>
        rw [shown_to_end hclose]
        simp only [MemoryCitationChunk.append, ↓reduceIte, List.append_nil, List.nil_append]
        exact .unterminated hfirst (absent_of_split_first hclose)
      | some q =>
        have hshorter := (length_after_tag hclose).trans (length_after_tag hopen)
        rw [shown_inside hclose]
        exact .region hfirst (isFirst_of_split_first hclose) (ih _ hshorter q.2 rfl)

/-! ## The history -/

namespace core

variable {Uuid : Type} [DecidableEq Uuid] (parse_str : Text → Option Uuid)

theorem find_eq_none {text pattern : Text} (h : Absent pattern text) :
    find text pattern = none := by
  rw [find, split_first_of_absent h, Option.map_none]

/-- What the first place of a text and the slices beside it are. -/
theorem find_of_isFirst {text pattern before after : Text} (h : IsFirst pattern text before after) :
    find text pattern = some (Text.len before) ∧
      slice_to text (Text.len before) = some before ∧
      slice_from text (Text.len before + Text.len pattern) = some after := by
  have hsplit := split_first_of_isFirst h
  exact ⟨by rw [find, hsplit, Option.map_some], slices_of_find hsplit⟩

omit [DecidableEq Uuid] in
theorem parse_rollout_ids_total (inner : Text) :
    ∃ ids, parse_rollout_ids parse_str inner = some ids := by
  unfold parse_rollout_ids
  cases hopen : split_first ROLLOUT_IDS_OPEN inner with
  | none => exact ⟨[], by simp [find, hopen]⟩
  | some p =>
    obtain ⟨hfind, -, hfrom⟩ := find_of_isFirst (isFirst_of_split_first hopen)
    simp only [hfind, hfrom, Option.bind_eq_bind, Option.bind_some]
    cases hclose : split_first ROLLOUT_IDS_CLOSE p.2 with
    | none => exact ⟨[], by simp [find, hclose]⟩
    | some q =>
      obtain ⟨hfind', hto, -⟩ := find_of_isFirst (isFirst_of_split_first hclose)
      simp only [hfind', hto, Option.bind_some]
      exact ⟨_, rfl⟩

/-- The history gets the text without the citations. -/
theorem strip_loop_of_removed {rest visible : Text} {citations : List Text}
    (h : Removed rest visible citations) (cleaned : Text) (rollout_ids : List Uuid) :
    ∃ ids, strip_loop parse_str cleaned rollout_ids rest = some (cleaned ++ visible, ids) := by
  induction h generalizing cleaned rollout_ids with
  | plain habsent =>
    rw [strip_loop, show OPEN_TAG = CITATION_OPEN from rfl, find_eq_none habsent]
    exact ⟨_, rfl⟩
  | @unterminated rest before inner hopen habsent =>
    obtain ⟨hfind, hto, hfrom⟩ := find_of_isFirst hopen
    rw [strip_loop]
    simp only [show OPEN_TAG = CITATION_OPEN from rfl, show CLOSE_TAG = CITATION_CLOSE from rfl,
      hfind]
    split
    · rename_i b a hb ha
      obtain rfl : before = b := Option.some.inj (hto.symm.trans hb)
      obtain rfl : inner = a := Option.some.inj (hfrom.symm.trans ha)
      simp only [find_eq_none habsent]
      exact ⟨_, rfl⟩
    · rename_i hnone
      exact absurd hfrom (hnone _ _ hto)
  | @region rest before after inner later visible citations hopen hclose _ ih =>
    obtain ⟨hfind, hto, hfrom⟩ := find_of_isFirst hopen
    obtain ⟨hfind', hto', hfrom'⟩ := find_of_isFirst hclose
    obtain ⟨ids, hids⟩ := parse_rollout_ids_total parse_str inner
    rw [strip_loop]
    simp only [show OPEN_TAG = CITATION_OPEN from rfl, show CLOSE_TAG = CITATION_CLOSE from rfl,
      hfind]
    split
    · rename_i b a hb ha
      obtain rfl : before = b := Option.some.inj (hto.symm.trans hb)
      obtain rfl : after = a := Option.some.inj (hfrom.symm.trans ha)
      simp only [hfind']
      split
      · rename_i i r hi hr
        obtain rfl : inner = i := Option.some.inj (hto'.symm.trans hi)
        obtain rfl : later = r := Option.some.inj (hfrom'.symm.trans hr)
        simp only [hids]
        rw [← List.append_assoc]
        exact ih (cleaned ++ before) (push_new rollout_ids ids)
      · rename_i hnone
        exact absurd hfrom' (hnone _ _ hto')
    · rename_i hnone
      exact absurd hfrom (hnone _ _ hto)

end core

/-- However a text is cut into pieces, the parser shows the same as for the whole text, ends as it
began, and no slice fails. What it shows is the text without the regions between the tags, which is
also what the history gets. -/
theorem pieces_show_the_same {Uuid : Type} [DecidableEq Uuid] (parse_str : Text → Option Uuid)
    (pieces : List Text) :
    ∃ out ids, MemoryCitationParser.default.stream pieces = some (out, .default) ∧
      strip_memory_citations pieces.flatten = some out ∧
      Removed pieces.flatten out.visible_text out.citations ∧
      core.strip_memory_citations parse_str pieces.flatten = some (out.visible_text, ids) := by
  have hremoved := removed_shown pieces.flatten
  obtain ⟨ids, hcore⟩ := core.strip_loop_of_removed parse_str hremoved [] []
  exact ⟨shown false [] pieces.flatten, ids, stream_eq pieces, strip_memory_citations_eq _,
    hremoved, hcore⟩

example : strip_memory_citations "x<oai-mem-citation>doc".toList =
    some ⟨['x'], ["doc".toList]⟩ := by
  rw [strip_memory_citations_eq]
  decide +kernel

end Ecode.memory_citation
