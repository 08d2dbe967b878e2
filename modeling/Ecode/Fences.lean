-- The fenced code blocks of a markdown text (tui/src/render/markdown_utils.rs): which of them are
-- open, and what is lost with the empty ones.
import Ecode.TextLines

namespace Ecode.markdown_utils

open Text

/-! ## The functions -/

def FENCE : Text := "```".toList

def is_fence (line : Text) : Bool := starts_with (trim_start line) FENCE

def is_inside_unclosed_fence (source : Text) : Bool :=
  (lines source).foldl (fun is_open line => if is_fence line then !is_open else is_open) false

theorem length_after_fence {p : Text → Bool} {left rest : List Text} {closing : Text}
    (h : left.dropWhile p = closing :: rest) : rest.length < left.length := by
  have hle := (List.dropWhile_suffix p (l := left)).length_le
  rw [h, List.length_cons] at hle
  exact hle

/-- The separator in place of an empty block. -/
def push_separator (out : Text) : Text :=
  let out := if ends_with out ['\n'] then out else out ++ ['\n']
  if ends_with out ['\n', '\n'] then out else out ++ ['\n']

/-- The loop over the lines that are left. Behind a fence it reads on to the closing one, or to the
end. -/
def strip_loop (out : Text) (pending_blank : Bool) (left : List Text) : Text :=
  match left with
  | [] => out
  | line :: left =>
    if is_fence line then
      let inner := left.takeWhile fun l => !is_fence l
      match _h : left.dropWhile fun l => !is_fence l with
      | _ :: left =>
        if inner.all fun l => (trim l).isEmpty then
          strip_loop (push_separator out) pending_blank left
        else
          strip_loop (out ++ line ++ ['\n'] ++ terminated inner ++ FENCE ++ ['\n']) pending_blank
            left
      | [] => out ++ line ++ ['\n']
    else
      let out := if pending_blank && !ends_with out ['\n'] then out ++ ['\n'] else out
      strip_loop (out ++ line ++ ['\n']) false left
termination_by left.length
decreasing_by
  · exact Nat.lt_succ_of_lt (length_after_fence _h)
  · exact Nat.lt_succ_of_lt (length_after_fence _h)
  · exact Nat.lt_succ_self _

def strip_empty_fenced_code_blocks (source : Text) : Text :=
  if !contains source FENCE then source
  else
    let out := strip_loop [] false (lines source)
    if source.getLast? = some '\n' then out
    else if ends_with out ['\n'] then out.dropLast
    else out

/-! ## Line by line -/

/-- What has been emitted after some lines, and the fence that is open with the lines in it. -/
structure Scan where
  emitted : List Text
  inside : Option (Text × List Text)

/-- The blank lines in place of an empty block. -/
def separator (emitted : List Text) : List Text :=
  if emitted = [] then [[], []]
  else if emitted.getLast? = some [] ∧ 2 ≤ emitted.length then []
  else [[]]

def is_blank (line : Text) : Bool := (trim line).isEmpty

/-- What is emitted for a closed block. -/
def closed_block (emitted : List Text) (opening : Text) (inner : List Text) : List Text :=
  if inner.all is_blank then separator emitted else opening :: inner ++ [FENCE]

def Scan.next (s : Scan) (line : Text) : Scan :=
  match s.inside with
  | none =>
    if is_fence line then { s with inside := some (line, []) }
    else { s with emitted := s.emitted ++ [line] }
  | some (opening, inner) =>
    if is_fence line then
      { emitted := s.emitted ++ closed_block s.emitted opening inner, inside := none }
    else { s with inside := some (opening, inner ++ [line]) }

def scan (lines : List Text) : Scan := lines.foldl Scan.next { emitted := [], inside := none }

/-- The lines of the result: of an open block only its fence is left. -/
def Scan.result (s : Scan) : List Text :=
  s.emitted ++ (s.inside.map Prod.fst).toList

theorem ends_with_iff {t s : Text} : ends_with t s = true ↔ ∃ r, t = r ++ s := by
  unfold ends_with
  rw [List.isSuffixOf_iff_suffix]
  exact ⟨fun ⟨r, h⟩ => ⟨r, h.symm⟩, fun ⟨r, h⟩ => ⟨r, h.symm⟩⟩

theorem terminated_concat (ls : List Text) (l : Text) :
    terminated (ls ++ [l]) = terminated ls ++ l ++ ['\n'] := by
  simp [terminated]

/-- The text of some lines ends with a blank line when the last of at least two is blank. -/
theorem ends_blank_iff (emitted : List Text) {l : Text} (h : '\n' ∉ l) :
    ends_with (terminated (emitted ++ [l])) ['\n', '\n'] = true ↔ l = [] ∧ emitted ≠ [] := by
  rw [ends_with_iff, terminated_concat]
  constructor
  · rintro ⟨r, heq⟩
    have hlast : terminated emitted ++ l = r ++ ['\n'] := by
      have hparts : (terminated emitted ++ l) ++ ['\n'] = (r ++ ['\n']) ++ ['\n'] := by
        simpa using heq
      exact (List.append_inj' hparts rfl).1
    obtain rfl | ⟨m, c, rfl⟩ := List.eq_nil_or_concat' l
    · refine ⟨rfl, ?_⟩
      rintro rfl
      simp [terminated] at hlast
    · rw [← List.append_assoc] at hlast
      obtain rfl : c = '\n' := by simpa using (List.append_inj' hlast rfl).2
      simp at h
  · rintro ⟨rfl, hne⟩
    obtain rfl | ⟨es, e, rfl⟩ := List.eq_nil_or_concat' emitted
    · exact absurd rfl hne
    · exact ⟨terminated es ++ e, by simp [terminated_concat]⟩

/-- The separator on the text is the one on the lines. -/
theorem push_separator_eq {emitted : List Text} (h : ∀ l ∈ emitted, '\n' ∉ l) :
    push_separator (terminated emitted) = terminated (emitted ++ separator emitted) := by
  obtain rfl | ⟨es, l, rfl⟩ := List.eq_nil_or_concat' emitted
  · decide
  · have hend : ends_with (terminated (es ++ [l])) ['\n'] = true :=
      ends_with_iff.mpr ⟨_, terminated_concat es l⟩
    have hblank := ends_blank_iff es (h l (by simp))
    unfold push_separator separator
    simp only [hend, ↓reduceIte]
    by_cases hl : l = [] ∧ es ≠ []
    · have hlong : 2 ≤ (es ++ [l]).length := by
        have hpos := List.length_pos_iff.mpr hl.2
        simp only [List.length_append, List.length_singleton]
        omega
      rw [if_pos (hblank.mpr hl), if_neg (by simp), if_pos ⟨by simp [hl.1], hlong⟩,
        List.append_nil]
    · have hshort : ¬ ((es ++ [l]).getLast? = some [] ∧ 2 ≤ (es ++ [l]).length) := by
        rintro ⟨hlast, hlong⟩
        refine hl ⟨by simpa using hlast, ?_⟩
        rintro rfl
        simp at hlong
      rw [if_neg fun h => hl (hblank.mp h), if_neg (by simp), if_neg hshort]
      simp [terminated]

/-- The lines of a block are read without leaving it. -/
theorem foldl_inside {inner : List Text} (h : ∀ l ∈ inner, is_fence l = false)
    (emitted : List Text) (opening : Text) (before : List Text) :
    inner.foldl Scan.next { emitted, inside := some (opening, before) } =
      { emitted, inside := some (opening, before ++ inner) } := by
  induction inner generalizing before with
  | nil => simp
  | cons l inner ih =>
    rw [List.forall_mem_cons] at h
    rw [List.foldl_cons, Scan.next]
    simp only [h.1, Bool.false_eq_true, ↓reduceIte]
    rw [ih h.2]
    simp

/-- A block is read from its fence to the closing one. -/
theorem foldl_closed {emitted inner rest : List Text} {opening closing : Text}
    (hopening : is_fence opening = true) (hinner : ∀ l ∈ inner, is_fence l = false)
    (hclosing : is_fence closing = true) :
    (inner ++ closing :: rest).foldl Scan.next
        (Scan.next { emitted, inside := none } opening) =
      rest.foldl Scan.next
        { emitted := emitted ++ closed_block emitted opening inner, inside := none } := by
  rw [Scan.next]
  simp only [hopening, ↓reduceIte]
  rw [List.foldl_append, foldl_inside hinner, List.foldl_cons, Scan.next]
  simp only [hclosing, ↓reduceIte, List.nil_append]

theorem separator_blank {emitted : List Text} : ∀ l ∈ separator emitted, l = [] := by
  unfold separator
  split_ifs <;> simp

theorem closed_block_forall {P : Text → Prop} (hblank : P []) (hfence : P FENCE)
    {emitted inner : List Text} {opening : Text} (hemitted : ∀ l ∈ emitted, P l)
    (hopening : P opening) (hinner : ∀ l ∈ inner, P l) :
    ∀ l ∈ emitted ++ closed_block emitted opening inner, P l := by
  intro l hl
  rcases List.mem_append.mp hl with hl | hl
  · exact hemitted l hl
  unfold closed_block at hl
  split at hl
  · rw [separator_blank l hl]
    exact hblank
  · simp only [List.cons_append, List.mem_cons, List.mem_append, List.not_mem_nil, or_false] at hl
    rcases hl with rfl | hl | rfl
    · exact hopening
    · exact hinner l hl
    · exact hfence

/-- The loop emits what the scan line by line emits. -/
theorem strip_loop_eq (emitted left : List Text) (hemitted : ∀ l ∈ emitted, '\n' ∉ l)
    (hleft : ∀ l ∈ left, '\n' ∉ l) :
    strip_loop (terminated emitted) false left =
      terminated (left.foldl Scan.next { emitted, inside := none }).result := by
  induction hn : left.length using Nat.strong_induction_on generalizing emitted left with
  | h n ih =>
    subst hn
    cases left with
    | nil => simp [strip_loop, Scan.result]
    | cons line left =>
      obtain ⟨hline, hleft⟩ := List.forall_mem_cons.mp hleft
      rw [strip_loop]
      by_cases hfence : is_fence line = true
      · rw [if_pos hfence]
        have hinner : ∀ l ∈ left.takeWhile (fun l => !is_fence l), is_fence l = false :=
          fun l hl => by simpa using List.mem_takeWhile_imp hl
        have hparts := List.takeWhile_append_dropWhile (p := fun l => !is_fence l) (l := left)
        generalize left.takeWhile (fun l => !is_fence l) = inner at hinner hparts ⊢
        dsimp only
        split
        · rename_i closing rest hrest
          have hclosing : is_fence closing = true := by
            have hhead := List.head?_dropWhile_not (fun l => !is_fence l) left
            rw [hrest] at hhead
            simpa using hhead
          rw [hrest] at hparts
          subst hparts
          have hrest' : ∀ l ∈ rest, '\n' ∉ l := fun l hl => hleft l (by simp [hl])
          have hshort : rest.length < (line :: (inner ++ closing :: rest)).length := by
            simp only [List.length_cons, List.length_append]
            omega
          have hinner' : ∀ l ∈ inner, '\n' ∉ l := fun l hl => hleft l (by simp [hl])
          rw [List.foldl_cons, foldl_closed hfence hinner hclosing,
            ← ih _ hshort _ _ (closed_block_forall List.not_mem_nil (by decide) hemitted hline
              hinner') hrest' rfl, closed_block]
          change (if inner.all is_blank then _ else _) = _
          split
          · rw [push_separator_eq hemitted]
          · simp [terminated]
        · rename_i hrest
          rw [hrest, List.append_nil] at hparts
          subst hparts
          rw [List.foldl_cons, Scan.next]
          simp only [hfence, ↓reduceIte]
          rw [foldl_inside hinner]
          simp [Scan.result, terminated]
      · rw [if_neg hfence]
        rw [Bool.not_eq_true] at hfence
        have hmore := ih left.length (Nat.lt_succ_self _) (emitted ++ [line]) left
          (by simpa [or_imp, forall_and] using ⟨hemitted, hline⟩) hleft rfl
        rw [terminated_concat] at hmore
        simp only [Bool.false_and, Bool.false_eq_true, ↓reduceIte, List.foldl_cons, Scan.next,
          hfence]
        exact hmore

/-! ## What the scan keeps -/

/-- A line that is neither blank nor a fence. -/
def is_content (line : Text) : Bool := !is_blank line && !is_fence line

/-- Whether a fence is open after the lines. -/
def unclosed (ls : List Text) : Bool :=
  ls.foldl (fun is_open line => if is_fence line then !is_open else is_open) false

/-- The lines of the block that is open. -/
def Scan.open_lines (s : Scan) : List Text := (s.inside.map Prod.snd).getD []

/-- The scan after some lines: what it has emitted and what it reads. -/
structure Scan.Follows (s : Scan) (ls : List Text) : Prop where
  opening : ∀ opening inner, s.inside = some (opening, inner) → is_fence opening = true
  inner : ∀ opening inner, s.inside = some (opening, inner) →
    inner = ls.rtakeWhile fun l => !is_fence l
  content : s.emitted.filter is_content ++ s.open_lines.filter is_content = ls.filter is_content
  balanced : unclosed s.emitted = false
  parity : s.inside.isSome = unclosed ls
  last : s.inside = none → ∀ l, is_content l = true →
    (s.emitted.getLast? = some l ↔ ls.getLast? = some l)

theorem unclosed_append (a b : List Text) : unclosed (a ++ b) = (unclosed a ^^ unclosed b) := by
  have hfrom (is_open : Bool) : b.foldl
      (fun is_open line => if is_fence line then !is_open else is_open) is_open =
        (is_open ^^ unclosed b) := by
    unfold unclosed
    induction b generalizing is_open with
    | nil => simp
    | cons l b ih =>
      rw [List.foldl_cons, List.foldl_cons, ih, ih (if is_fence l then !false else false)]
      cases is_fence l <;> simp
  unfold unclosed
  rw [List.foldl_append, hfrom]
  rfl

theorem unclosed_singleton (l : Text) : unclosed [l] = is_fence l := by
  unfold unclosed
  cases h : is_fence l <;> simp [h]

theorem unclosed_of_no_fence {ls : List Text} (h : ∀ l ∈ ls, is_fence l = false) :
    unclosed ls = false := by
  induction ls with
  | nil => rfl
  | cons l ls ih =>
    rw [List.forall_mem_cons] at h
    rw [← List.singleton_append, unclosed_append, unclosed_singleton, h.1, ih h.2]
    rfl

theorem fence_is_fence : is_fence FENCE = true := by decide

theorem not_fence_of_blank {l : Text} (h : l = []) : is_fence l = false := by
  subst h
  decide

theorem closed_block_content {emitted inner : List Text} {opening : Text}
    (hopening : is_fence opening = true) :
    (closed_block emitted opening inner).filter is_content = inner.filter is_content := by
  have hblank (ls : List Text) (h : ∀ l ∈ ls, is_blank l = true) : ls.filter is_content = [] :=
    List.filter_eq_nil_iff.mpr fun l hl => by simp [is_content, h l hl]
  unfold closed_block
  split
  · rename_i hall
    rw [hblank inner (List.all_eq_true.mp hall),
      hblank _ fun l hl => by rw [separator_blank l hl]; rfl]
  · rw [List.filter_append, List.filter_cons_of_neg (by simp [is_content, hopening])]
    simp [is_content, fence_is_fence]

theorem closed_block_balanced {emitted inner : List Text} {opening : Text}
    (hopening : is_fence opening = true) (hinner : ∀ l ∈ inner, is_fence l = false) :
    unclosed (closed_block emitted opening inner) = false := by
  unfold closed_block
  split
  · exact unclosed_of_no_fence fun l hl => not_fence_of_blank (separator_blank l hl)
  · rw [List.cons_append, ← List.singleton_append, unclosed_append, unclosed_append,
      unclosed_singleton, unclosed_singleton, hopening, unclosed_of_no_fence hinner,
      fence_is_fence]
    rfl

/-- The last line after a closed block is no content. -/
theorem closed_block_last {emitted inner : List Text} {opening l : Text}
    (h : (emitted ++ closed_block emitted opening inner).getLast? = some l) :
    is_content l = false := by
  have hempty : is_content [] = false := by decide
  have hfence : is_content FENCE = false := by decide
  unfold closed_block at h
  split at h
  · unfold separator at h
    split_ifs at h with hnil hblank
    · obtain rfl : [] = l := by simpa [hnil] using h
      exact hempty
    · rw [List.append_nil, hblank.1] at h
      obtain rfl := Option.some.inj h
      exact hempty
    · obtain rfl : [] = l := by simpa using h
      exact hempty
  · obtain rfl : FENCE = l := by
      rw [← List.append_assoc, List.getLast?_concat] at h
      exact Option.some.inj h
    exact hfence

theorem scan_concat (ls : List Text) (l : Text) : scan (ls ++ [l]) = (scan ls).next l := by
  simp [scan, List.foldl_append]

/-- A fence opens a block when none is open. -/
theorem Scan.Follows.opens {s : Scan} {ls : List Text} (hs : s.Follows ls)
    (hinside : s.inside = none) {l : Text} (hl : is_fence l = true) :
    Scan.Follows { s with inside := some (l, []) } (ls ++ [l]) where
  opening := by simp [hl]
  inner := by simp [List.rtakeWhile_concat_neg, hl]
  content := by
    have hcontent := hs.content
    simp only [Scan.open_lines, hinside] at hcontent
    simpa [Scan.open_lines, is_content, hl] using hcontent
  balanced := hs.balanced
  parity := by
    have hparity := hs.parity
    simp only [hinside, Option.isSome_none] at hparity
    rw [unclosed_append, unclosed_singleton, hl, ← hparity]
    rfl
  last := by simp

/-- The closing fence emits the block. -/
theorem Scan.Follows.closes {s : Scan} {ls inner : List Text} {opening : Text}
    (hs : s.Follows ls) (hinside : s.inside = some (opening, inner)) {l : Text}
    (hl : is_fence l = true) :
    Scan.Follows ⟨s.emitted ++ closed_block s.emitted opening inner, none⟩ (ls ++ [l]) where
  opening := by simp
  inner := by simp
  content := by
    have hcontent := hs.content
    simp only [Scan.open_lines, hinside, Option.map_some, Option.getD_some] at hcontent
    rw [List.filter_append, closed_block_content (hs.opening _ _ hinside), List.filter_append,
      ← hcontent]
    simp [Scan.open_lines, is_content, hl]
  balanced := by
    have hinner : ∀ m ∈ inner, is_fence m = false := by
      intro m hm
      rw [hs.inner _ _ hinside] at hm
      simpa using List.mem_rtakeWhile_imp hm
    rw [unclosed_append, hs.balanced, closed_block_balanced (hs.opening _ _ hinside) hinner]
    rfl
  parity := by
    have hparity := hs.parity
    simp only [hinside, Option.isSome_some] at hparity
    rw [unclosed_append, unclosed_singleton, hl, ← hparity]
    rfl
  last := by
    intro _ m hm
    constructor
    · intro hlast
      rw [closed_block_last hlast] at hm
      cases hm
    · intro hlast
      obtain rfl : l = m := by simpa using hlast
      simp [is_content, hl] at hm

theorem Scan.Follows.line {s : Scan} {ls : List Text} (hs : s.Follows ls)
    (hinside : s.inside = none) {l : Text} (hl : is_fence l = false) :
    Scan.Follows { s with emitted := s.emitted ++ [l] } (ls ++ [l]) where
  opening := by simp [hinside]
  inner := by simp [hinside]
  content := by
    have hcontent := hs.content
    simp only [Scan.open_lines, hinside] at hcontent ⊢
    rw [List.filter_append, List.filter_append, ← hcontent]
    simp
  balanced := by
    rw [unclosed_append, unclosed_singleton, hs.balanced, hl]
    rfl
  parity := by
    rw [unclosed_append, unclosed_singleton, hl, ← hs.parity]
    simp
  last := by simp

theorem Scan.Follows.inner_line {s : Scan} {ls inner : List Text} {opening : Text}
    (hs : s.Follows ls) (hinside : s.inside = some (opening, inner)) {l : Text}
    (hl : is_fence l = false) :
    Scan.Follows { s with inside := some (opening, inner ++ [l]) } (ls ++ [l]) where
  opening := by simpa using hs.opening _ _ hinside
  inner := by
    have hinner := hs.inner _ _ hinside
    rw [List.rtakeWhile_concat_pos _ _ _ (by simp [hl]), ← hinner]
    simp
  content := by
    have hcontent := hs.content
    simp only [Scan.open_lines, hinside, Option.map_some, Option.getD_some] at hcontent ⊢
    rw [List.filter_append, List.filter_append, ← hcontent, List.append_assoc]
  balanced := hs.balanced
  parity := by
    have hparity := hs.parity
    simp only [hinside, Option.isSome_some] at hparity
    rw [unclosed_append, unclosed_singleton, hl, ← hparity]
    rfl
  last := by simp

/-- By induction on the lines, with one case for each kind of line inside and outside of a block. -/
theorem scan_follows (ls : List Text) : (scan ls).Follows ls := by
  induction ls using List.reverseRecOn with
  | nil => exact ⟨by simp [scan], by simp [scan], rfl, rfl, rfl, by simp [scan]⟩
  | append_singleton ls l ih =>
    rw [scan_concat, Scan.next]
    cases hinside : (scan ls).inside with
    | none =>
      dsimp only
      split
      · rename_i hl
        exact ih.opens hinside hl
      · rename_i hl
        have hline := ih.line hinside (Bool.eq_false_iff.mpr hl)
        rwa [hinside] at hline
    | some block =>
      dsimp only
      split
      · rename_i hl
        exact ih.closes hinside hl
      · rename_i hl
        exact ih.inner_line hinside (Bool.eq_false_iff.mpr hl)

/-! ## Carriage returns -/

/-- A line without the carriage return before its line feed. -/
def without_return (l : Text) : Text := (strip_suffix l ['\r']).getD l

theorem without_return_cases (l : Text) :
    without_return l = l ∧ ends_with l ['\r'] = false ∨ l = without_return l ++ ['\r'] := by
  unfold without_return
  cases h : strip_suffix l ['\r'] with
  | some m => exact .inr (eq_append_of_strip_suffix h)
  | none =>
    refine .inl ⟨rfl, ?_⟩
    rw [Bool.eq_false_iff]
    intro hends
    obtain ⟨r, rfl⟩ := ends_with_iff.mp hends
    rw [strip_suffix_append] at h
    cases h

theorem without_return_eq_self {l : Text} : without_return l = l ↔ ends_with l ['\r'] = false := by
  obtain ⟨hself, hends⟩ | hreturn := without_return_cases l
  · exact ⟨fun _ => hends, fun _ => hself⟩
  · constructor
    · intro hself
      have hlength := congrArg List.length hreturn
      rw [hself] at hlength
      simp at hlength
    · intro hends
      rw [Bool.eq_false_iff] at hends
      exact absurd (ends_with_iff.mpr ⟨_, hreturn⟩) hends

theorem dropWhile_return (l : Text) :
    trim_start (l ++ ['\r']) = if (trim_start l).isEmpty then [] else trim_start l ++ ['\r'] := by
  have hreturn : is_whitespace '\r' = true := by decide
  unfold trim_start
  rw [List.dropWhile_append]
  simp [hreturn]

theorem is_blank_eq (l : Text) : is_blank l = (trim_start l).isEmpty := by
  have hhead := List.head?_dropWhile_not is_whitespace l
  unfold is_blank trim trim_end trim_start
  cases hstart : l.dropWhile is_whitespace with
  | nil => rfl
  | cons c m =>
    rw [hstart] at hhead
    have hc : is_whitespace c = false := by simpa using hhead
    rw [List.isEmpty_reverse, List.isEmpty_eq_false_iff.mpr (List.cons_ne_nil c m),
      List.isEmpty_eq_false_iff]
    intro hall
    rw [List.dropWhile_eq_nil_iff] at hall
    have hwhite := hall c (by simp)
    rw [hc] at hwhite
    cases hwhite

theorem is_fence_without_return (l : Text) : is_fence (without_return l) = is_fence l := by
  obtain ⟨hself, -⟩ | hreturn := without_return_cases l
  · rw [hself]
  · generalize without_return l = m at hreturn ⊢
    subst hreturn
    have hfence (y : Text) : starts_with (y ++ ['\r']) FENCE = starts_with y FENCE := by
      rw [Bool.eq_iff_iff, starts_with, starts_with, List.isPrefixOf_iff_prefix,
        List.isPrefixOf_iff_prefix, List.prefix_concat_iff]
      constructor
      · rintro (heq | hprefix)
        · have hlast := congrArg List.getLast? heq
          rw [List.getLast?_concat] at hlast
          cases hlast
        · exact hprefix
      · exact .inr
    rw [is_fence, is_fence, dropWhile_return]
    split
    · rename_i hnil
      rw [List.isEmpty_iff.mp hnil]
    · rw [hfence]

theorem is_blank_without_return (l : Text) : is_blank (without_return l) = is_blank l := by
  obtain ⟨hself, -⟩ | hreturn := without_return_cases l
  · rw [hself]
  · generalize without_return l = m at hreturn ⊢
    subst hreturn
    rw [is_blank_eq, is_blank_eq, dropWhile_return]
    cases trim_start m <;> rfl

theorem is_content_without_return (l : Text) : is_content (without_return l) = is_content l := by
  rw [is_content, is_content, is_fence_without_return, is_blank_without_return]

/-- The lines of a text of lines and a last one that is not ended. -/
theorem lines_terminated_append {ls : List Text} {last : Text} (h : ∀ l ∈ ls, '\n' ∉ l)
    (hlast : '\n' ∉ last) :
    lines (terminated ls ++ last) =
      ls.map without_return ++ if last = [] then [] else [last] := by
  unfold lines
  rw [split_inclusive_terminated h, List.map_append, List.map_map]
  congr 1
  · refine List.map_congr_left fun l _ => ?_
    rw [Function.comp_apply, chomp, strip_suffix_append]
    rfl
  · split
    · rename_i hnil
      rw [hnil]
      rfl
    · rename_i hne
      rw [split_inclusive_last hlast hne, List.map_singleton, chomp_last hlast]

/-! ## When nothing is lost -/

/-- Every line with content is in the output as often and in the same order, and a fence is open in
it when one is in the source. -/
def KeepsContent (source : Text) : Prop :=
  (lines (strip_empty_fenced_code_blocks source)).filter is_content =
      (lines source).filter is_content ∧
    is_inside_unclosed_fence (strip_empty_fenced_code_blocks source) =
      is_inside_unclosed_fence source

/-- After a fence that is not closed there are only blank lines, and no line with content ends with
two carriage returns. -/
def NothingDropped (source : Text) : Prop :=
  (is_inside_unclosed_fence source = true →
    ∀ l ∈ (lines source).rtakeWhile fun l => !is_fence l, is_blank l = true) ∧
  ∀ piece ∈ split_inclusive source, ends_with piece ['\r', '\r', '\n'] = true →
    is_content (chomp piece) = false

theorem map_eq_append_iff (xs ys : List Text) :
    xs.map without_return = xs ++ ys ↔ ys = [] ∧ ∀ x ∈ xs, ends_with x ['\r'] = false := by
  have hself : xs.map without_return = xs.map id ↔ ∀ x ∈ xs, ends_with x ['\r'] = false := by
    rw [List.map_inj_left]
    exact forall₂_congr fun x _ => without_return_eq_self
  rw [List.map_id] at hself
  constructor
  · intro h
    obtain rfl : ys = [] := by
      have hlength := congrArg List.length h
      simpa using hlength
    rw [List.append_nil] at h
    exact ⟨rfl, hself.mp h⟩
  · rintro ⟨rfl, hxs⟩
    rw [List.append_nil]
    exact hself.mpr hxs

theorem filter_map_without_return (ls : List Text) :
    (ls.map without_return).filter is_content = (ls.filter is_content).map without_return := by
  rw [List.filter_map]
  congr 2
  funext l
  exact is_content_without_return l

theorem unclosed_map_without_return (ls : List Text) :
    unclosed (ls.map without_return) = unclosed ls := by
  induction ls using List.reverseRecOn with
  | nil => rfl
  | append_singleton ls l ih =>
    rw [List.map_append, List.map_singleton, unclosed_append, unclosed_append, ih,
      unclosed_singleton, unclosed_singleton, is_fence_without_return]

/-- What holds of the lines, of a blank one and of a fence holds of all lines of the scan. -/
theorem scan_forall {P : Text → Prop} (hblank : P []) (hfence : P FENCE) {ls : List Text}
    (h : ∀ l ∈ ls, P l) :
    (∀ l ∈ (scan ls).emitted, P l) ∧
      ∀ opening inner, (scan ls).inside = some (opening, inner) →
        P opening ∧ ∀ l ∈ inner, P l := by
  induction ls using List.reverseRecOn with
  | nil => simp [scan]
  | append_singleton ls l ih =>
    obtain ⟨hemitted, hinside⟩ := ih fun m hm => h m (List.mem_append_left _ hm)
    have hl : P l := h l (by simp)
    rw [scan_concat, Scan.next]
    cases hblock : (scan ls).inside with
    | none =>
      dsimp only
      split
      · exact ⟨hemitted, by simp [hl]⟩
      · exact ⟨by simpa [or_imp, forall_and] using ⟨hemitted, hl⟩, by simp⟩
    | some block =>
      obtain ⟨hopening, hinner⟩ := hinside _ _ hblock
      dsimp only
      split
      · exact ⟨closed_block_forall hblank hfence hemitted hopening hinner, by simp⟩
      · refine ⟨hemitted, ?_⟩
        rintro _ _ ⟨⟩
        exact ⟨hopening, by simpa [or_imp, forall_and] using ⟨hinner, hl⟩⟩

theorem result_forall {P : Text → Prop} (hblank : P []) (hfence : P FENCE) {ls : List Text}
    (h : ∀ l ∈ ls, P l) : ∀ l ∈ (scan ls).result, P l := by
  obtain ⟨hemitted, hinside⟩ := scan_forall hblank hfence h
  intro l hl
  rcases List.mem_append.mp hl with hl | hl
  · exact hemitted l hl
  · cases hblock : (scan ls).inside with
    | none => simp [hblock] at hl
    | some block =>
      obtain rfl : l = block.1 := by simpa [hblock] using hl
      exact (hinside _ _ hblock).1

theorem lines_clean (source : Text) : ∀ l ∈ lines source, '\n' ∉ l := by
  obtain ⟨ls, last, rfl, hls, hlast⟩ := exists_terminated source
  rw [lines_terminated_append hls hlast]
  intro l hl
  rcases List.mem_append.mp hl with hl | hl
  · obtain ⟨m, hm, rfl⟩ := List.mem_map.mp hl
    obtain ⟨hself, -⟩ | hreturn := without_return_cases m
    · rw [hself]
      exact hls m hm
    · intro hmem
      apply hls m hm
      rw [hreturn]
      exact List.mem_append_left _ hmem
  · split at hl
    · cases hl
    · obtain rfl := List.mem_singleton.mp hl
      exact hlast

/-- The lines of the output are those of the scan; the last one is not ended when the source does
not end with a line feed. -/
theorem lines_strip {source : Text} (h : contains source FENCE = true) :
    lines (strip_empty_fenced_code_blocks source) =
      if source.getLast? = some '\n' then
        (scan (lines source)).result.map without_return
      else
        (scan (lines source)).result.dropLast.map without_return ++
          (scan (lines source)).result.getLast?.toList.filter (· ≠ []) := by
  have hout : strip_loop [] false (lines source) = terminated (scan (lines source)).result :=
    strip_loop_eq [] _ (by simp) (lines_clean source)
  have hclean := result_forall (P := fun l => '\n' ∉ l) List.not_mem_nil (by decide)
    (lines_clean source)
  unfold strip_empty_fenced_code_blocks
  rw [h, hout]
  generalize (scan (lines source)).result = result at hclean ⊢
  simp only [Bool.not_true, Bool.false_eq_true, ↓reduceIte]
  split
  · have hlines : lines (terminated result ++ []) = result.map without_return ++ [] :=
      lines_terminated_append hclean List.not_mem_nil
    simpa using hlines
  · obtain rfl | ⟨es, e, rfl⟩ := List.eq_nil_or_concat' result
    · decide
    · rw [if_pos (ends_with_iff.mpr ⟨_, terminated_concat es e⟩), terminated_concat,
        List.dropLast_concat, lines_terminated_append (fun l hl => hclean l (by simp [hl]))
          (hclean e (by simp))]
      by_cases he : e = [] <;> simp [he]

theorem dropLast_append_last (ls : List Text) : ls.dropLast ++ ls.getLast?.toList = ls := by
  obtain rfl | ⟨es, e, rfl⟩ := List.eq_nil_or_concat' ls <;> simp

/-- Behind the loop a fence is open as before. -/
theorem unclosed_result (ls : List Text) : unclosed (scan ls).result = unclosed ls := by
  have hs := scan_follows ls
  rw [Scan.result, unclosed_append, hs.balanced, ← hs.parity]
  cases hinside : (scan ls).inside with
  | none => rfl
  | some block =>
    rw [Option.map_some, Option.toList_some, unclosed_singleton, hs.opening _ _ hinside]
    rfl

theorem unclosed_filter_nonempty (l : Option Text) :
    unclosed (l.toList.filter (· ≠ [])) = unclosed l.toList := by
  cases l with
  | none => rfl
  | some l =>
    by_cases hl : l = []
    · subst hl
      decide
    · simp [hl]

/-- The output always has an open fence when the source has. -/
theorem unclosed_strip (source : Text) :
    is_inside_unclosed_fence (strip_empty_fenced_code_blocks source) =
      is_inside_unclosed_fence source := by
  cases h : contains source FENCE with
  | false => simp [strip_empty_fenced_code_blocks, h]
  | true =>
    change unclosed (lines _) = unclosed (lines source)
    rw [lines_strip h, ← unclosed_result (lines source)]
    split
    · rw [unclosed_map_without_return]
    · rw [unclosed_append, unclosed_map_without_return, unclosed_filter_nonempty,
        ← unclosed_append, dropLast_append_last]

/-- Of the content only that of an open block is not emitted. -/
theorem result_content (ls : List Text) :
    (scan ls).result.filter is_content ++ (scan ls).open_lines.filter is_content =
      ls.filter is_content := by
  have hs := scan_follows ls
  rw [← hs.content, Scan.result, List.filter_append]
  cases hinside : (scan ls).inside with
  | none => simp
  | some block => simp [is_content, hs.opening _ _ hinside]

/-- An open block has no content exactly when only blank lines follow its fence. -/
theorem open_lines_blank_iff (ls : List Text) :
    (scan ls).open_lines.filter is_content = [] ↔
      (unclosed ls = true →
        ∀ l ∈ ls.rtakeWhile fun l => !is_fence l, is_blank l = true) := by
  have hs := scan_follows ls
  rw [← hs.parity, List.filter_eq_nil_iff]
  cases hinside : (scan ls).inside with
  | none => simp [Scan.open_lines, hinside]
  | some block =>
    have hinner := hs.inner _ _ hinside
    simp only [Scan.open_lines, hinside, Option.map_some, Option.getD_some, hinner,
      Option.isSome_some, true_implies]
    refine forall₂_congr fun l hl => ?_
    have hl : is_fence l = false := by simpa using List.mem_rtakeWhile_imp hl
    simp [is_content, hl]

theorem chomp_ended (l : Text) : chomp (l ++ ['\n']) = without_return l := by
  rw [chomp, strip_suffix_append]
  rfl

theorem ends_two_returns_iff (l : Text) :
    ends_with (l ++ ['\n']) ['\r', '\r', '\n'] = true ↔
      ends_with (without_return l) ['\r'] = true := by
  rw [ends_with_iff, ends_with_iff]
  constructor
  · rintro ⟨r, heq⟩
    have hparts : l ++ ['\n'] = ((r ++ ['\r']) ++ ['\r']) ++ ['\n'] := by simpa using heq
    obtain rfl := (List.append_inj' hparts rfl).1
    refine ⟨r, ?_⟩
    rw [without_return, strip_suffix_append]
    rfl
  · rintro ⟨r, heq⟩
    obtain ⟨hself, hends⟩ | hreturn := without_return_cases l
    · rw [hself] at heq
      rw [Bool.eq_false_iff] at hends
      exact absurd (ends_with_iff.mpr ⟨r, heq⟩) hends
    · rw [hreturn, heq]
      exact ⟨r, by simp⟩

/-- The lines that a line feed ends. -/
theorem complete_content_iff {ls : List Text} {last : Text} (h : ∀ l ∈ ls, '\n' ∉ l)
    (hlast : '\n' ∉ last) :
    (∀ piece ∈ split_inclusive (terminated ls ++ last),
        ends_with piece ['\r', '\r', '\n'] = true → is_content (chomp piece) = false) ↔
      ∀ l ∈ (ls.map without_return).filter is_content, ends_with l ['\r'] = false := by
  have hopen : ∀ piece ∈ split_inclusive last,
      ends_with piece ['\r', '\r', '\n'] = true → is_content (chomp piece) = false := by
    intro piece hpiece hends
    have hsame : piece = last := by
      by_cases hnil : last = []
      · rw [hnil] at hpiece
        cases hpiece
      · rw [split_inclusive_last hlast hnil] at hpiece
        exact List.mem_singleton.mp hpiece
    obtain ⟨r, hr⟩ := ends_with_iff.mp hends
    rw [← hsame, hr] at hlast
    simp at hlast
  rw [split_inclusive_terminated h]
  constructor
  · intro hpieces l hl
    obtain ⟨hmem, hcontent⟩ := List.mem_filter.mp hl
    obtain ⟨m, hm, rfl⟩ := List.mem_map.mp hmem
    by_contra hends
    rw [Bool.not_eq_false, ← ends_two_returns_iff] at hends
    have hnone := hpieces (m ++ ['\n'])
      (List.mem_append_left _ (List.mem_map.mpr ⟨m, hm, rfl⟩)) hends
    rw [chomp_ended, hcontent] at hnone
    cases hnone
  · intro hlines piece hpiece hends
    rcases List.mem_append.mp hpiece with hpiece | hpiece
    · obtain ⟨m, hm, rfl⟩ := List.mem_map.mp hpiece
      rw [ends_two_returns_iff] at hends
      rw [chomp_ended]
      by_contra hcontent
      rw [Bool.not_eq_false] at hcontent
      have hnone := hlines _ (List.mem_filter.mpr ⟨List.mem_map.mpr ⟨m, hm, rfl⟩, hcontent⟩)
      rw [hends] at hnone
      cases hnone
    · exact hopen piece hpiece hends

/-- The last line of the scan is content exactly when the last line of the source is and no block is
open. -/
theorem result_last_iff {ls : List Text} {l : Text} (hl : is_content l = true) :
    (scan ls).result.getLast? = some l ↔ (scan ls).inside = none ∧ ls.getLast? = some l := by
  have hs := scan_follows ls
  cases hinside : (scan ls).inside with
  | none => simp [Scan.result, hinside, hs.last hinside l hl]
  | some block =>
    simp only [Scan.result, hinside, Option.map_some, Option.toList_some, List.getLast?_concat,
      reduceCtorEq, false_and, iff_false]
    intro heq
    obtain rfl := Option.some.inj heq
    simp [is_content, hs.opening _ _ hinside] at hl

/-- A last line of content that is in an open block is lost. -/
theorem open_of_last {ls : List Text} {l : Text} (hl : is_content l = true)
    (hopen : (scan (ls ++ [l])).open_lines.filter is_content = []) :
    (scan (ls ++ [l])).inside = none := by
  have hs := scan_follows (ls ++ [l])
  cases hinside : (scan (ls ++ [l])).inside with
  | none => rfl
  | some block =>
    have hfence : is_fence l = false := by
      simp only [is_content, Bool.and_eq_true, Bool.not_eq_true'] at hl
      exact hl.2
    have hinner := hs.inner _ _ hinside
    rw [List.rtakeWhile_concat_pos _ _ _ (by simp [hfence])] at hinner
    simp [Scan.open_lines, hinside, hinner, hl] at hopen

theorem filter_last (ls : List Text) :
    ls.dropLast.filter is_content ++ ls.getLast?.toList.filter is_content =
      ls.filter is_content := by
  rw [← List.filter_append, dropLast_append_last]

/-- The content of the output of a source whose last line is not ended: this line keeps its
carriage return. -/
theorem content_kept_open {ls : List Text} {last : Text} :
    ((scan (ls ++ [last])).result.dropLast.filter is_content).map without_return ++
          (scan (ls ++ [last])).result.getLast?.toList.filter is_content =
        (ls ++ [last]).filter is_content ↔
      (scan (ls ++ [last])).open_lines.filter is_content = [] ∧
        ∀ l ∈ ls.filter is_content, ends_with l ['\r'] = false := by
  have hparts := result_content (ls ++ [last])
  have hresult := filter_last (scan (ls ++ [last])).result
  by_cases hlast : is_content last = true ∧ (scan (ls ++ [last])).inside = none
  · have hend := (result_last_iff hlast.1).mpr ⟨hlast.2, by simp⟩
    have hopen : (scan (ls ++ [last])).open_lines = [] := by simp [Scan.open_lines, hlast.2]
    rw [hend, Option.toList_some, List.filter_cons_of_pos hlast.1, List.filter_nil] at hresult ⊢
    rw [hopen, List.filter_nil, List.append_nil, ← hresult, List.filter_append,
      List.filter_cons_of_pos hlast.1, List.filter_nil] at hparts
    have hsame := List.append_cancel_right hparts
    have hmap := map_eq_append_iff (ls.filter is_content) []
    rw [List.append_nil] at hmap
    rw [hsame, List.filter_append, List.filter_cons_of_pos hlast.1, List.filter_nil,
      List.append_cancel_right_eq, hopen, List.filter_nil]
    exact hmap
  · have hend : (scan (ls ++ [last])).result.getLast?.toList.filter is_content = [] := by
      rw [List.filter_eq_nil_iff]
      intro l hl hcontent
      obtain ⟨hinside, hsame⟩ := (result_last_iff hcontent).mp (by simpa using hl)
      obtain rfl : last = l := by simpa using hsame
      exact hlast ⟨hcontent, hinside⟩
    rw [hend, List.append_nil] at hresult ⊢
    rw [hresult, ← hparts, map_eq_append_iff]
    refine and_congr_right fun hopen => ?_
    have hnone : is_content last = false := by
      by_contra hcontent
      rw [Bool.not_eq_false] at hcontent
      exact hlast ⟨hcontent, open_of_last hcontent hopen⟩
    rw [hopen, List.append_nil, List.filter_append,
      List.filter_cons_of_neg (Bool.eq_false_iff.mp hnone), List.filter_nil,
      List.append_nil] at hparts
    rw [hparts]

theorem terminated_ends {ls : List Text} (h : ls ≠ []) :
    (terminated ls).getLast? = some '\n' := by
  obtain rfl | ⟨es, e, rfl⟩ := List.eq_nil_or_concat' ls
  · exact absurd rfl h
  · rw [terminated_concat, List.getLast?_concat]

theorem unended_last (ls : List Text) {last : Text} (hlast : '\n' ∉ last) (hne : last ≠ []) :
    ¬ (terminated ls ++ last).getLast? = some '\n' := by
  obtain rfl | ⟨m, c, rfl⟩ := List.eq_nil_or_concat' last
  · exact absurd rfl hne
  · rw [← List.append_assoc, List.getLast?_concat]
    intro heq
    exact hlast (by simp [Option.some.inj heq])

/-- The content of the output, by whether the source ends with a line feed. -/
theorem content_kept_iff (ls : List Text) {last : Text} (h : ∀ l ∈ ls, '\n' ∉ l)
    (hlast : '\n' ∉ last) (hfence : contains (terminated ls ++ last) FENCE = true) :
    (lines (strip_empty_fenced_code_blocks (terminated ls ++ last))).filter is_content =
        (lines (terminated ls ++ last)).filter is_content ↔
      (scan (lines (terminated ls ++ last))).open_lines.filter is_content = [] ∧
        ∀ l ∈ (ls.map without_return).filter is_content, ends_with l ['\r'] = false := by
  rw [lines_strip hfence, lines_terminated_append h hlast]
  by_cases hnil : last = []
  · subst hnil
    have hended : (terminated ls ++ []).getLast? = some '\n' := by
      rw [List.append_nil]
      apply terminated_ends
      rintro rfl
      cases hfence
    have hparts := result_content (ls.map without_return)
    rw [if_pos hended, if_pos rfl, List.append_nil, filter_map_without_return, ← hparts,
      map_eq_append_iff]
    refine and_congr_right fun hopen => ?_
    rw [hopen, List.append_nil]
  · have hended := unended_last ls hlast hnil
    have hnonempty (l : Option Text) :
        (l.toList.filter (· ≠ [])).filter is_content = l.toList.filter is_content := by
      rw [List.filter_filter]
      refine List.filter_congr fun m _ => ?_
      cases m with
      | nil => rfl
      | cons => simp
    rw [if_neg hended, if_neg hnil, List.filter_append, filter_map_without_return, hnonempty]
    exact content_kept_open

/-- Removing the empty blocks loses nothing exactly when the source has no fence at all, or no
content behind an open one and no content line that ends with two carriage returns. -/
theorem keeps_content_iff (source : Text) :
    KeepsContent source ↔ (contains source FENCE = true → NothingDropped source) := by
  rw [KeepsContent, and_iff_left (unclosed_strip source)]
  cases hfence : contains source FENCE with
  | false => simp [strip_empty_fenced_code_blocks, hfence]
  | true =>
    obtain ⟨ls, last, rfl, hls, hlast⟩ := exists_terminated source
    rw [content_kept_iff ls hls hlast hfence, NothingDropped, complete_content_iff hls hlast,
      open_lines_blank_iff]
    exact ⟨fun h _ => h, fun h => h rfl⟩

/-- The code that has come so far of an open block is lost. -/
theorem open_block_is_lost : ¬ KeepsContent "```rust\nlet x = 1;\n".toList := by
  intro h
  have hcontent : (lines (strip_empty_fenced_code_blocks "```rust\nlet x = 1;\n".toList)).filter
      is_content = ["let x = 1;".toList] := h.1
  revert hcontent
  decide +kernel

end Ecode.markdown_utils
