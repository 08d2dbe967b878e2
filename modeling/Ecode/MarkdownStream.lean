-- The collector of streamed markdown (tui/src/markdown_stream.rs): it renders its buffer anew at
-- every commit and gives out the lines that it has not given out yet.
import Ecode.Fences

namespace Ecode.markdown_stream

open Text Ecode.markdown_utils

/-! ## Lines of text -/

/-- The rest of a text behind the number that it begins with. -/
def after_number (t : Text) : Option Text :=
  if (t.takeWhile Char.isDigit).isEmpty then none else some (t.dropWhile Char.isDigit)

def is_potentially_volatile_list_line (text : Text) : Bool :=
  let t := trim_end text
  if t ∈ ["-".toList, "*".toList, "- ".toList, "* ".toList] then true
  else if starts_with t "- ".toList || starts_with t "* ".toList then true
  else match after_number t with
    | some ('.' :: ' ' :: _) => true
    | _ => false

def is_bare_list_marker (text : Text) : Bool :=
  let t := trim text
  if t ∈ ["-".toList, "*".toList, "- ".toList, "* ".toList] then true
  else match after_number t with
    | some ['.'] | some ('.' :: ' ' :: _) => true
    | _ => false

def starts_with_list_marker (text : Text) : Bool :=
  let t := trim_start text
  if starts_with t "- ".toList || starts_with t "* ".toList || starts_with t "-\t".toList ||
      starts_with t "*\t".toList then true
  else match after_number t with
    | some ('.' :: ' ' :: _) | some (' ' :: _) => true
    | _ => false

/-- `str::trim_start_matches` of a fence. -/
def trim_start_fences : Text → Text
  | '`' :: '`' :: '`' :: t => trim_start_fences t
  | t => t

/-- The loop over the lines from the last one back. -/
def last_non_empty (lines : List Text) : Nat → Nat
  | 0 => 0
  | last_idx + 1 =>
    if (trim (lines.getD (last_idx + 1) [])).isEmpty then last_non_empty lines last_idx
    else last_idx + 1

/-- The lines between the fences of an outer markdown block. -/
def outer_fence (lines : List Text) : Option (List Text) :=
  if lines.length < 2 then none
  else
    let opening := trim_start (lines.headD [])
    if !starts_with opening FENCE then none
    else
      let lang := trim (trim_start_fences opening)
      if !(eq_ignore_ascii_case lang "markdown".toList || eq_ignore_ascii_case lang "md".toList)
        then none
      else
        let last_idx := last_non_empty lines (lines.length - 1)
        if trim (lines.getD last_idx []) ≠ FENCE then none
        else some ((lines.take last_idx).drop 1)

def unwrap_markdown_language_fence_if_enabled (s : Text) : Text :=
  match outer_fence (lines s) with
  | none => s
  | some inner => terminated inner

/-- A text with a line feed at its end. -/
def ended (source : Text) : Text := if ends_with source ['\n'] then source else source ++ ['\n']

/-- What is rendered of a text. -/
def render_source (text : Text) : Text :=
  strip_empty_fenced_code_blocks (unwrap_markdown_language_fence_if_enabled text)

/-! ## Rendered lines -/

structure Span (Color : Type) where
  content : Text
  bg : Option Color
  deriving DecidableEq

structure Line (Color : Type) where
  spans : List (Span Color)
  bg : Option Color
  deriving DecidableEq

def Line.text {Color : Type} (line : Line Color) : Text := line.spans.flatMap Span.content

def is_blank_line_spaces_only {Color : Type} (line : Line Color) : Bool :=
  line.spans.all fun s => s.content.all (· == ' ')

/-! ## The collector -/

structure MarkdownStreamCollector where
  buffer : Text
  committed_line_count : Nat
  bold_first_sentence : Bool
  pending_section_break : Bool
  leading_bullet_state : Option Bool

namespace MarkdownStreamCollector

def new : MarkdownStreamCollector := ⟨[], 0, false, false, none⟩

def new_with_bold_first : MarkdownStreamCollector := ⟨[], 0, true, false, none⟩

def clear (s : MarkdownStreamCollector) : MarkdownStreamCollector :=
  { s with
    buffer := []
    committed_line_count := 0
    pending_section_break := false
    leading_bullet_state := none }

def strip_leading_bullet_if_first_line (s : MarkdownStreamCollector) : MarkdownStreamCollector :=
  if s.leading_bullet_state.isSome || 0 < s.committed_line_count then s
  else match s.buffer with
    | [] => s
    | first :: rest =>
      if first ≠ '-' then { s with leading_bullet_state := some false }
      else match rest with
        | second :: after =>
          if second = ' ' ∨ second = '\t' then
            { s with buffer := after, leading_bullet_state := some true }
          else if second = '\n' ∨ second = '\r' then
            { s with buffer := second :: after, leading_bullet_state := some true }
          else if is_whitespace second then
            { s with buffer := after, leading_bullet_state := some true }
          else { s with leading_bullet_state := some false }
        | [] => s

def push_delta (s : MarkdownStreamCollector) (delta : Text) : MarkdownStreamCollector :=
  let s := strip_leading_bullet_if_first_line { s with buffer := s.buffer ++ delta }
  if s.pending_section_break && ends_with s.buffer ['\n'] then
    let buffer := if ends_with s.buffer ['\n', '\n'] then s.buffer else s.buffer ++ ['\n']
    { s with buffer := buffer, pending_section_break := false }
  else s

section

-- `char::is_alphanumeric`, the background of code blocks, and a renderer that is given whether the
-- first sentence is bold and one line of the source.
variable {Color : Type} [DecidableEq Color] (is_alphanumeric : Char → Bool)
  (code_block_bg : Color) (render : Bool → Text → Line Color)

def is_code_block_painted (line : Line Color) : Bool :=
  if line.bg = some code_block_bg then true
  else if line.spans.any fun s => decide (s.bg = some code_block_bg) then true
  else contains line.text "⟦LANG:".toList

def is_short_plain_word (s : Text) : Bool :=
  let t := trim s
  if t.isEmpty || 5 < len t then false else t.all is_alphanumeric

/-- `append_markdown` and `append_markdown_with_bold_first`, line by line. -/
def append_markdown (bold_first_sentence : Bool) (source : Text) : List (Line Color) :=
  (lines source).map (render bold_first_sentence)

/-- Whether the last of the first lines has a property. -/
def last_line (rendered : List (Line Color)) (count : Nat) (p : Line Color → Bool) : Bool :=
  (rendered.take count).getLast?.any p

/-- The trailing blank line is withheld, but not one of a code block. -/
def hold_back_blank (rendered : List (Line Color)) (count : Nat) : Nat :=
  if last_line rendered count fun last =>
      is_blank_line_spaces_only last && !is_code_block_painted code_block_bg last then count - 1
  else count

/-- A bullet before a blank line is withheld. -/
def hold_back_bullet (buffer : Text) (rendered : List (Line Color)) (count : Nat) : Nat :=
  if ends_with buffer ['\n', '\n'] && last_line rendered count fun last =>
      starts_with last.text "- ".toList && trim last.text != "-".toList then count - 1
  else count

/-- Without a line feed at the end the last line is withheld, one more in an open block, and one
more before what may begin a list item. -/
def hold_back_incomplete (buffer source : Text) (count : Nat) : Nat :=
  if ends_with buffer ['\n'] then count
  else
    let count := count - 1
    let count := if is_inside_unclosed_fence source then count - 1 else count
    if '\n' ∈ source ∧ starts_with_list_marker (source.rtakeWhile (· != '\n')) = true then count - 1
    else count

/-- The loop over the trailing lines that look like list items. -/
def hold_back_lists (rendered : List (Line Color)) (committed_line_count : Nat) : Nat → Nat
  | 0 => 0
  | safe_count + 1 =>
    if committed_line_count < safe_count + 1 && last_line rendered (safe_count + 1) fun l =>
        is_potentially_volatile_list_line l.text then
      hold_back_lists rendered committed_line_count safe_count
    else safe_count + 1

def commit_complete_lines (s : MarkdownStreamCollector) :
    List (Line Color) × MarkdownStreamCollector :=
  let source := render_source s.buffer
  let rendered := append_markdown render s.bold_first_sentence source
  let complete_line_count := hold_back_blank code_block_bg rendered rendered.length
  let complete_line_count := hold_back_bullet s.buffer rendered complete_line_count
  let complete_line_count := hold_back_incomplete s.buffer source complete_line_count
  let complete_line_count := hold_back_lists rendered s.committed_line_count complete_line_count
  if complete_line_count ≤ s.committed_line_count then ([], s)
  else if is_inside_unclosed_fence source then ([], s)
  else
    let out_slice := (rendered.take complete_line_count).drop s.committed_line_count
    if out_slice.length == 1 && out_slice.all fun l => is_short_plain_word is_alphanumeric l.text
      then ([], s)
    else (out_slice, { s with committed_line_count := complete_line_count })

def commit_soft_lines (s : MarkdownStreamCollector)
    (relax_list_holdback relax_code_holdback : Bool) :
    List (Line Color) × MarkdownStreamCollector :=
  let source := render_source s.buffer
  let rendered := append_markdown render s.bold_first_sentence source
  if rendered.length ≤ s.committed_line_count then ([], s)
  else
    let in_open_fence := is_inside_unclosed_fence source
    if in_open_fence && !relax_code_holdback then ([], s)
    else
      let stop := rendered.length
      let stop := if in_open_fence && relax_code_holdback then stop - 1 else stop
      let stop := if relax_list_holdback && s.committed_line_count < stop &&
          last_line rendered stop (fun last => is_bare_list_marker last.text) then stop - 1
        else stop
      if stop ≤ s.committed_line_count then ([], s)
      else
        ((rendered.take stop).drop s.committed_line_count,
          { s with committed_line_count := stop })

def finalize_and_drain (s : MarkdownStreamCollector) :
    List (Line Color) × MarkdownStreamCollector :=
  let rendered := append_markdown render s.bold_first_sentence (render_source (ended s.buffer))
  let out :=
    if rendered.length ≤ s.committed_line_count then [] else rendered.drop s.committed_line_count
  (out, s.clear)

end

end MarkdownStreamCollector

/-! ## The lines of a longer text -/

/-- The lines of a text that text may have been added to: its last line may go on. -/
inductive GrowsTo : List Text → List Text → Prop where
  | more (ls more : List Text) : GrowsTo ls (ls ++ more)
  | longer (ls : List Text) (last line : Text) (more : List Text)
      (hfence : is_fence last = true → is_fence line = true)
      (hblank : is_blank line = true → is_blank last = true) :
      GrowsTo (ls ++ [last]) (ls ++ line :: more)

theorem lines_line {l : Text} (h : '\n' ∉ l) (t : Text) :
    lines (l ++ '\n' :: t) = without_return l :: lines t := by
  unfold lines
  rw [split_inclusive_line h, List.map_cons, chomp_ended]

theorem lines_terminated_text {ls : List Text} (h : ∀ l ∈ ls, '\n' ∉ l) (t : Text) :
    lines (terminated ls ++ t) = ls.map without_return ++ lines t := by
  induction ls with
  | nil => rfl
  | cons l ls ih =>
    obtain ⟨hl, hls⟩ := List.forall_mem_cons.mp h
    rw [terminated_cons_append, lines_line hl, ih hls]
    rfl

theorem trim_start_append {last : Text} (h : trim_start last ≠ []) (w : Text) :
    trim_start (last ++ w) = trim_start last ++ w := by
  unfold trim_start at h ⊢
  rw [List.dropWhile_append]
  simp [h]

theorem is_fence_longer {last : Text} (h : is_fence last = true) (w : Text) :
    is_fence (without_return (last ++ w)) = true := by
  have hne : trim_start last ≠ [] := by
    intro hnil
    rw [is_fence, hnil] at h
    cases h
  rw [is_fence_without_return, is_fence, trim_start_append hne, starts_with,
    List.isPrefixOf_iff_prefix]
  rw [is_fence, starts_with, List.isPrefixOf_iff_prefix] at h
  exact h.trans (List.prefix_append _ _)

theorem is_blank_shorter {last w : Text} (h : is_blank (without_return (last ++ w)) = true) :
    is_blank last = true := by
  rw [is_blank_without_return, is_blank_eq] at h
  rw [is_blank_eq]
  by_contra hne
  rw [List.isEmpty_iff] at hne
  rw [trim_start_append hne, List.isEmpty_iff, List.append_eq_nil_iff] at h
  exact hne h.1

/-- The lines of an ended text that begins with some lines and an unfinished one. -/
theorem lines_longer {ls : List Text} {last t : Text} (h : ∀ l ∈ ls, '\n' ∉ l)
    (hlast : '\n' ∉ last) (ht : ends_with t ['\n'] = true) :
    ∃ w more, lines (terminated ls ++ (last ++ t)) =
      ls.map without_return ++ without_return (last ++ w) :: more := by
  obtain ⟨ms, rest, rfl, hms, hrest⟩ := exists_terminated t
  cases ms with
  | nil =>
    obtain ⟨r, hr⟩ := ends_with_iff.mp ht
    rw [show terminated [] ++ rest = rest from rfl] at hr
    rw [hr] at hrest
    simp at hrest
  | cons m ms =>
    obtain ⟨hm, hms⟩ := List.forall_mem_cons.mp hms
    have hfirst : '\n' ∉ last ++ m := by simp [hlast, hm]
    refine ⟨m, lines (terminated ms ++ rest), ?_⟩
    rw [lines_terminated_text h, terminated_cons_append, ← List.append_assoc, lines_line hfirst]

theorem ended_ends (t : Text) : ends_with (ended t) ['\n'] = true := by
  unfold ended
  split
  · assumption
  · exact ends_with_iff.mpr ⟨t, rfl⟩

theorem ended_append (a : Text) {b : Text} (h : b ≠ []) : ended (a ++ b) = a ++ ended b := by
  have hsame : ends_with (a ++ b) ['\n'] = ends_with b ['\n'] := by
    obtain rfl | ⟨m, c, rfl⟩ := List.eq_nil_or_concat' b
    · exact absurd rfl h
    · rw [Bool.eq_iff_iff, ends_with_iff, ends_with_iff]
      constructor
      · rintro ⟨r, hr⟩
        rw [← List.append_assoc] at hr
        exact ⟨m, by rw [(List.append_inj' hr rfl).2]⟩
      · rintro ⟨r, hr⟩
        exact ⟨a ++ r, by rw [hr, List.append_assoc]⟩
  unfold ended
  rw [hsame]
  split <;> simp

theorem lines_whole_ended {ls : List Text} (h : ∀ l ∈ ls, '\n' ∉ l) (rest : Text) :
    ∃ more, lines (ended (terminated ls ++ rest)) = ls.map without_return ++ more := by
  have hended : ∃ t, ended (terminated ls ++ rest) = terminated ls ++ t := by
    unfold ended
    split
    · exact ⟨rest, rfl⟩
    · exact ⟨rest ++ ['\n'], by simp⟩
  obtain ⟨t, ht⟩ := hended
  exact ⟨lines t, by rw [ht, lines_terminated_text h]⟩

theorem lines_whole_unended {ls : List Text} {last : Text} (h : ∀ l ∈ ls, '\n' ∉ l)
    (hlast : '\n' ∉ last) (hne : last ≠ []) (rest : Text) :
    ∃ w more, lines (ended (terminated ls ++ last ++ rest)) =
      ls.map without_return ++ without_return (last ++ w) :: more := by
  have hended : ∃ t, ended (terminated ls ++ last ++ rest) = terminated ls ++ (last ++ t) ∧
      ends_with t ['\n'] = true := by
    by_cases hrest : rest = []
    · refine ⟨['\n'], ?_, rfl⟩
      rw [hrest, List.append_nil, ended_append _ hne, ended, if_neg]
      rw [ends_with_iff]
      rintro ⟨r, rfl⟩
      simp at hlast
    · exact ⟨ended rest, by rw [ended_append _ hrest, List.append_assoc], ended_ends rest⟩
  obtain ⟨t, ht, hends⟩ := hended
  rw [ht]
  exact lines_longer h hlast hends

/-- The lines of a buffer and those of the whole text. -/
theorem lines_grow (buffer rest : Text) :
    GrowsTo (lines buffer) (lines (ended (buffer ++ rest))) := by
  obtain ⟨ls, last, rfl, hls, hlast⟩ := exists_terminated buffer
  rw [lines_terminated_append hls hlast]
  by_cases hnil : last = []
  · obtain ⟨more, hmore⟩ := lines_whole_ended hls rest
    rw [if_pos hnil, hnil, List.append_nil, List.append_nil, hmore]
    exact .more _ _
  · obtain ⟨w, more, hmore⟩ := lines_whole_unended hls hlast hnil rest
    rw [if_neg hnil, hmore]
    exact .longer _ _ _ _ (fun h => is_fence_longer h w) is_blank_shorter

/-! ## The scan of a longer text -/

theorem scan_next_keeps (s : Scan) (l : Text) : s.emitted <+: (s.next l).emitted := by
  unfold Scan.next
  split
  · split
    · exact List.prefix_rfl
    · exact List.prefix_append _ _
  · split
    · exact List.prefix_append _ _
    · exact List.prefix_rfl

/-- What is emitted stays. -/
theorem scan_keeps (ls more : List Text) : (scan ls).emitted <+: (scan (ls ++ more)).emitted := by
  induction more using List.reverseRecOn with
  | nil => rw [List.append_nil]
  | append_singleton more l ih =>
    rw [← List.append_assoc, scan_concat]
    exact ih.trans (scan_next_keeps _ l)

/-- It does not matter which fence closes a block. -/
theorem scan_closed {ls : List Text} {a b : Text} (hinside : (scan ls).inside.isSome = true)
    (ha : is_fence a = true) (hb : is_fence b = true) : scan (ls ++ [a]) = scan (ls ++ [b]) := by
  obtain ⟨block, hblock⟩ := Option.isSome_iff_exists.mp hinside
  rw [scan_concat, scan_concat, Scan.next, Scan.next, hblock]
  simp [ha, hb]

/-! ## The outer fence of a longer text -/

theorem last_non_empty_le (ls : List Text) (n : Nat) : last_non_empty ls n ≤ n := by
  induction n with
  | zero => exact Nat.le_refl 0
  | succ n ih =>
    unfold last_non_empty
    split
    · exact Nat.le_succ_of_le ih
    · exact Nat.le_refl _

theorem le_last_non_empty {ls : List Text} {k n : Nat} (hk : k ≤ n)
    (h : is_blank (ls.getD k []) = false) : k ≤ last_non_empty ls n := by
  induction n with
  | zero => exact hk
  | succ n ih =>
    unfold last_non_empty
    split
    · rename_i hempty
      have hne : k ≠ n + 1 := by
        rintro rfl
        rw [is_blank, hempty] at h
        cases h
      exact ih (by omega)
    · exact hk

theorem outer_fence_eq_some {ls inner : List Text} (h : outer_fence ls = some inner) :
    2 ≤ ls.length ∧ trim (ls.getD (last_non_empty ls (ls.length - 1)) []) = FENCE ∧
      inner = (ls.take (last_non_empty ls (ls.length - 1))).drop 1 := by
  unfold outer_fence at h
  split at h
  · cases h
  dsimp only at h
  split at h
  · cases h
  split at h
  · cases h
  split at h
  · cases h
  · rename_i hlength _ _ hclosing
    exact ⟨Nat.le_of_not_lt hlength, not_not.mp hclosing, (Option.some.inj h).symm⟩

theorem GrowsTo.length_le {ls ms : List Text} (h : GrowsTo ls ms) : ls.length ≤ ms.length := by
  cases h <;> simp

theorem GrowsTo.take_eq {ls ms : List Text} (h : GrowsTo ls ms) {k : Nat} (hk : k < ls.length) :
    ls.take k = ms.take k := by
  cases h with
  | more ls more => rw [List.take_append_of_le_length hk.le]
  | longer ls last line more =>
    rw [List.length_append, List.length_singleton] at hk
    rw [List.take_append_of_le_length (by omega), List.take_append_of_le_length (by omega)]

theorem GrowsTo.blank {ls ms : List Text} (h : GrowsTo ls ms) {k : Nat} (hk : k < ls.length)
    (hblank : is_blank (ms.getD k []) = true) : is_blank (ls.getD k []) = true := by
  cases h with
  | more ls more => rwa [List.getD_append _ _ _ _ hk] at hblank
  | longer ls last line more _ hlonger =>
    rw [List.length_append, List.length_singleton] at hk
    rcases Nat.lt_succ_iff_lt_or_eq.mp hk with hlt | rfl
    · rw [List.getD_append _ _ _ _ hlt] at hblank ⊢
      exact hblank
    · simp only [List.getD_append_right, Nat.le_refl, Nat.sub_self, List.getD_cons_zero] at hblank ⊢
      exact hlonger hblank

/-- The outer block of a longer text begins with the lines of the one before. -/
theorem outer_fence_grows {ls ms inner inner' : List Text} (h : GrowsTo ls ms)
    (hls : outer_fence ls = some inner) (hms : outer_fence ms = some inner') :
    inner <+: inner' := by
  obtain ⟨hlong, hclosing, rfl⟩ := outer_fence_eq_some hls
  obtain ⟨-, -, rfl⟩ := outer_fence_eq_some hms
  have hle := last_non_empty_le ls (ls.length - 1)
  have hlength := h.length_le
  have hk : last_non_empty ls (ls.length - 1) < ls.length := by omega
  have hgrows : last_non_empty ls (ls.length - 1) ≤ last_non_empty ms (ms.length - 1) := by
    apply le_last_non_empty (by omega)
    by_contra hblank
    rw [Bool.not_eq_false] at hblank
    have hclosed := h.blank hk hblank
    rw [is_blank, hclosing] at hclosed
    cases hclosed
  rw [h.take_eq hk, List.drop_take, List.drop_take]
  exact List.take_prefix_take_left (Nat.sub_le_sub_right hgrows 1)

/-! ## What is rendered -/

theorem contains_iff {t p : Text} : contains t p = true ↔ p <:+: t := by
  simp [contains, List.infix_iff_prefix_suffix, and_comm]

theorem not_fence_of_not_contains {text : Text} (h : contains text FENCE = false) :
    ∀ l ∈ lines text, is_fence l = false := by
  intro l hl
  by_contra hfence
  rw [Bool.not_eq_false, is_fence, starts_with, List.isPrefixOf_iff_prefix] at hfence
  have hline : FENCE <:+: l :=
    hfence.isInfix.trans (List.dropWhile_suffix is_whitespace).isInfix
  rw [Bool.eq_false_iff, Ne, contains_iff] at h
  apply h
  obtain ⟨ls, last, rfl, hls, hlast⟩ := exists_terminated text
  rw [lines_terminated_append hls hlast] at hl
  rcases List.mem_append.mp hl with hl | hl
  · obtain ⟨m, hm, rfl⟩ := List.mem_map.mp hl
    have hshort : without_return m <:+: m := by
      obtain ⟨hself, -⟩ | hreturn := without_return_cases m
      · rw [hself]
      · exact ⟨[], ['\r'], hreturn.symm⟩
    have hmem : m ++ ['\n'] <:+: terminated ls :=
      List.infix_of_mem_flatten (List.mem_map.mpr ⟨m, hm, rfl⟩)
    have hended : m <:+: m ++ ['\n'] := (List.prefix_append m ['\n']).isInfix
    exact (hline.trans hshort).trans
      ((hended.trans hmem).trans (List.prefix_append _ last).isInfix)
  · split at hl
    · cases hl
    · obtain rfl := List.mem_singleton.mp hl
      exact hline.trans (List.suffix_append _ _).isInfix

theorem scan_of_no_fence {ls : List Text} (h : ∀ l ∈ ls, is_fence l = false) :
    scan ls = { emitted := ls, inside := none } := by
  induction ls using List.reverseRecOn with
  | nil => rfl
  | append_singleton ls l ih =>
    rw [scan_concat, ih fun m hm => h m (List.mem_append_left _ hm), Scan.next]
    simp [h l (by simp)]

theorem map_without_return {ls : List Text} (h : ∀ l ∈ ls, without_return l = l) :
    ls.map without_return = ls :=
  (List.map_congr_left (g := fun l => l) h).trans (List.map_id' ls)

theorem lines_of_terminated {ls : List Text} (h : ∀ l ∈ ls, '\n' ∉ l) :
    lines (terminated ls) = ls.map without_return := by
  have happend : lines (terminated ls ++ []) = ls.map without_return ++ [] :=
    lines_terminated_append h List.not_mem_nil
  simpa using happend

/-- The lines that are rendered of a text of whole lines. -/
theorem lines_strip_ended {ls : List Text} (h : ∀ l ∈ ls, '\n' ∉ l)
    (hclean : ∀ l ∈ ls.map without_return, without_return l = l) :
    lines (strip_empty_fenced_code_blocks (terminated ls)) =
      (scan (ls.map without_return)).result := by
  have hlines := lines_of_terminated h
  cases hfence : contains (terminated ls) FENCE with
  | false =>
    have hscan := scan_of_no_fence (not_fence_of_not_contains hfence)
    rw [hlines] at hscan
    simp [strip_empty_fenced_code_blocks, hfence, hscan, Scan.result, hlines]
  | true =>
    have hne : ls ≠ [] := by
      rintro rfl
      cases hfence
    rw [lines_strip hfence, if_pos (terminated_ends hne), hlines]
    apply map_without_return
    exact result_forall (P := fun l => without_return l = l) rfl rfl hclean

theorem result_dropLast (s : Scan) : s.result.dropLast <+: s.emitted := by
  unfold Scan.result
  cases s.inside with
  | none => simpa using List.dropLast_prefix s.emitted
  | some block => simp

theorem result_of_closed {s : Scan} (h : s.inside.isSome = false) : s.result = s.emitted := by
  rw [Option.isSome_eq_false_iff, Option.isNone_iff_eq_none] at h
  simp [Scan.result, h]

/-- The lines that are rendered when a fence is in a text whose last line is not ended. -/
theorem lines_strip_fenced {ls : List Text} {last : Text} (h : ∀ l ∈ ls, '\n' ∉ l)
    (hlast : '\n' ∉ last) (hne : last ≠ [])
    (hfence : contains (terminated ls ++ last) FENCE = true) :
    let result := (scan (ls.map without_return ++ [last])).result
    lines (strip_empty_fenced_code_blocks (terminated ls ++ last)) =
      result.dropLast.map without_return ++ result.getLast?.toList.filter (· ≠ []) := by
  have hlines : lines (terminated ls ++ last) = ls.map without_return ++ [last] := by
    rw [lines_terminated_append h hlast, if_neg hne]
  dsimp only
  rw [← hlines]
  exact (lines_strip hfence).trans (if_neg (unended_last ls hlast hne))

/-- The last line of the scan keeps its carriage return, the others have none. -/
theorem without_return_last {emitted : List Text} {line : Text}
    (h : ∀ l ∈ emitted, without_return l = l) (hline : line ≠ []) :
    (emitted ++ [line]).dropLast.map without_return ++
        (emitted ++ [line]).getLast?.toList.filter (· ≠ []) = emitted ++ [line] := by
  rw [List.dropLast_concat, map_without_return h]
  simp [hline]

theorem without_return_keeps {emitted : List Text} (h : ∀ l ∈ emitted, without_return l = l) :
    emitted.dropLast.map without_return ++ emitted.getLast?.toList.filter (· ≠ []) <+:
      emitted := by
  rw [map_without_return fun l hl => h l (List.dropLast_subset emitted hl)]
  conv => rhs; rw [← dropLast_append_last emitted]
  apply (List.prefix_append_right_inj _).mpr
  cases emitted.getLast? with
  | none => exact List.prefix_rfl
  | some l => by_cases hl : l = [] <;> simp [hl]

/-- The lines that are rendered of a text whose last line is not ended: this is the last one, or the
fence of the block that it is in, or the line closes the block. -/
theorem lines_strip_unended {ls : List Text} {last : Text} (h : ∀ l ∈ ls, '\n' ∉ l)
    (hlast : '\n' ∉ last) (hne : last ≠ [])
    (hclean : ∀ l ∈ ls.map without_return, without_return l = l) :
    let s := scan (ls.map without_return)
    let shown := lines (strip_empty_fenced_code_blocks (terminated ls ++ last))
    (s.inside = none ∧ shown = s.emitted ++ [last]) ∨
      (s.inside.isSome = true ∧ is_fence last = false ∧ ∃ opening, shown = s.emitted ++ [opening]) ∨
      (s.inside.isSome = true ∧ is_fence last = true ∧
        shown <+: (scan (ls.map without_return ++ [last])).emitted) := by
  intro s shown
  cases hfence : contains (terminated ls ++ last) FENCE with
  | false =>
    have hlines : lines (terminated ls ++ last) = ls.map without_return ++ [last] := by
      rw [lines_terminated_append h hlast, if_neg hne]
    have hnone := not_fence_of_not_contains hfence
    rw [hlines] at hnone
    have hscan : s = { emitted := ls.map without_return, inside := none } :=
      scan_of_no_fence fun l hl => hnone l (List.mem_append_left _ hl)
    refine .inl ⟨by rw [hscan], ?_⟩
    simp [shown, strip_empty_fenced_code_blocks, hfence, hscan, hlines]
  | true =>
    obtain ⟨hemitted, hinside⟩ :=
      scan_forall (P := fun l => without_return l = l) rfl rfl hclean
    have hshown : shown = (scan (ls.map without_return ++ [last])).result.dropLast.map
        without_return ++ (scan (ls.map without_return ++ [last])).result.getLast?.toList.filter
          (· ≠ []) := lines_strip_fenced h hlast hne hfence
    cases hblock : (scan (ls.map without_return)).inside with
    | none =>
      have hresult : (scan (ls.map without_return ++ [last])).result = s.emitted ++ [last] := by
        rw [scan_concat, Scan.next, hblock]
        dsimp only
        split <;> simp [Scan.result, s]
      rw [hresult] at hshown
      exact .inl ⟨rfl, hshown.trans (without_return_last hemitted hne)⟩
    | some block =>
      obtain ⟨opening, inner⟩ := block
      obtain ⟨hopening, hinner⟩ := hinside _ _ hblock
      cases hclose : is_fence last with
      | false =>
        have hne : opening ≠ [] := by
          rintro rfl
          exact absurd ((scan_follows _).opening _ _ hblock) (by decide)
        have hresult : (scan (ls.map without_return ++ [last])).result =
            s.emitted ++ [opening] := by
          rw [scan_concat, Scan.next, hblock]
          simp [Scan.result, s, hclose]
        rw [hresult] at hshown
        exact .inr (.inl ⟨rfl, rfl, opening, hshown.trans (without_return_last hemitted hne)⟩)
      | true =>
        have hscan : scan (ls.map without_return ++ [last]) =
            ⟨s.emitted ++ closed_block s.emitted opening inner, none⟩ := by
          rw [scan_concat, Scan.next, hblock]
          simp [hclose, s]
        have hclosed := closed_block_forall (P := fun l => without_return l = l) rfl rfl hemitted
          hopening hinner
        refine .inr (.inr ⟨rfl, rfl, ?_⟩)
        rw [hscan, result_of_closed rfl] at hshown
        rw [hshown, hscan]
        exact without_return_keeps hclosed

/-! ## What is shown of the whole text -/

/-- The lines that are rendered of a text. -/
def shown (text : Text) : List Text := lines (render_source text)

/-- The lines of a text without an outer markdown fence, with the blocks that they close. -/
def whole (text : Text) : Scan := scan ((outer_fence (lines text)).getD (lines text))

/-- No line ends with a second carriage return. -/
def Clean (text : Text) : Prop := ∀ l ∈ lines text, without_return l = l

theorem unwrap_of_none {text : Text} (h : outer_fence (lines text) = none) :
    unwrap_markdown_language_fence_if_enabled text = text := by
  rw [unwrap_markdown_language_fence_if_enabled, h]

theorem unwrap_of_some {text : Text} {inner : List Text}
    (h : outer_fence (lines text) = some inner) :
    unwrap_markdown_language_fence_if_enabled text = terminated inner := by
  rw [unwrap_markdown_language_fence_if_enabled, h]

theorem outer_fence_subset {ls inner : List Text} (h : outer_fence ls = some inner) :
    ∀ l ∈ inner, l ∈ ls := by
  obtain ⟨-, -, rfl⟩ := outer_fence_eq_some h
  exact fun l hl => List.take_subset _ ls (List.drop_subset 1 _ hl)

/-- Inside an outer markdown fence there are whole lines only. -/
theorem shown_of_some {text : Text} {inner : List Text} (h : outer_fence (lines text) = some inner)
    (hclean : ∀ l ∈ inner, without_return l = l) : shown text = (scan inner).result := by
  have hbroken : ∀ l ∈ inner, '\n' ∉ l := fun l hl => lines_clean text l (outer_fence_subset h l hl)
  have hmap := map_without_return hclean
  rw [shown, render_source, unwrap_of_some h, lines_strip_ended hbroken, hmap]
  rwa [hmap]

/-- A fence is open in what is rendered exactly when the scan is in a block. -/
theorem unclosed_render_source {text : Text} (ls : List Text)
    (h : lines (unwrap_markdown_language_fence_if_enabled text) = ls) :
    is_inside_unclosed_fence (render_source text) = (scan ls).inside.isSome := by
  rw [render_source, unclosed_strip, (scan_follows ls).parity, ← h]
  rfl

/-- The lines of the whole text begin with those of the buffer: with all but the last one, and also
with this one if no fence is open and the buffer ends with a whole line. -/
structure Shows (buffer : Text) (emitted : List Text) (finished : Prop) : Prop where
  but_last : (shown buffer).dropLast <+: emitted
  all : is_inside_unclosed_fence (render_source buffer) = false → finished →
    shown buffer <+: emitted

theorem shows_of_result {buffer : Text} {emitted : List Text} {finished : Prop} (ls : List Text)
    (hshown : shown buffer = (scan ls).result)
    (hopen : is_inside_unclosed_fence (render_source buffer) = (scan ls).inside.isSome)
    (hkept : (scan ls).emitted <+: emitted) : Shows buffer emitted finished := by
  constructor
  · rw [hshown]
    exact (result_dropLast _).trans hkept
  · intro hclosed _
    rw [hopen] at hclosed
    rw [hshown, result_of_closed hclosed]
    exact hkept

/-- A buffer of whole lines, or inside an outer markdown fence. -/
theorem shows_of_some {buffer text : Text} {inner inner' : List Text} {finished : Prop}
    (hclean : Clean text) (hbuffer : outer_fence (lines buffer) = some inner)
    (htext : outer_fence (lines text) = some inner') (hgrows : inner <+: inner') :
    Shows buffer (whole text).emitted finished := by
  have hself : ∀ l ∈ inner, without_return l = l := fun l hl =>
    hclean l (outer_fence_subset htext l (hgrows.subset hl))
  have hlines : lines (unwrap_markdown_language_fence_if_enabled buffer) = inner := by
    rw [unwrap_of_some hbuffer, lines_of_terminated fun l hl =>
      lines_clean buffer l (outer_fence_subset hbuffer l hl), map_without_return hself]
  obtain ⟨more, rfl⟩ := hgrows
  rw [whole, htext, Option.getD_some]
  exact shows_of_result inner (shown_of_some hbuffer hself) (unclosed_render_source inner hlines)
    (scan_keeps inner more)

theorem shows_ended {ls : List Text} {rest : Text} {finished : Prop} (hls : ∀ l ∈ ls, '\n' ∉ l)
    (hclean : Clean (ended (terminated ls ++ rest)))
    (hbuffer : outer_fence (lines (terminated ls)) = none)
    (htext : outer_fence (lines (ended (terminated ls ++ rest))) = none) :
    Shows (terminated ls) (whole (ended (terminated ls ++ rest))).emitted finished := by
  obtain ⟨more, hmore⟩ := lines_whole_ended hls rest
  rw [whole, htext, Option.getD_none]
  rw [Clean, hmore] at hclean
  have hself : ∀ l ∈ ls.map without_return, without_return l = l := fun l hl =>
    hclean l (List.mem_append_left _ hl)
  have hunwrap := unwrap_of_none hbuffer
  refine shows_of_result (ls.map without_return) ?_ ?_ ?_
  · rw [shown, render_source, hunwrap, lines_strip_ended hls hself]
  · exact unclosed_render_source _ (by rw [hunwrap, lines_of_terminated hls])
  · rw [hmore]
    exact scan_keeps _ more

theorem shows_unended {ls : List Text} {last rest : Text} (hls : ∀ l ∈ ls, '\n' ∉ l)
    (hlast : '\n' ∉ last) (hne : last ≠ [])
    (hclean : Clean (ended (terminated ls ++ last ++ rest)))
    (hbuffer : outer_fence (lines (terminated ls ++ last)) = none)
    (htext : outer_fence (lines (ended (terminated ls ++ last ++ rest))) = none) :
    Shows (terminated ls ++ last) (whole (ended (terminated ls ++ last ++ rest))).emitted
      (lines (terminated ls ++ last) <+: lines (ended (terminated ls ++ last ++ rest))) := by
  obtain ⟨w, more, hmore⟩ := lines_whole_unended hls hlast hne rest
  rw [whole, htext, Option.getD_none]
  rw [Clean, hmore] at hclean
  have hself : ∀ l ∈ ls.map without_return, without_return l = l := fun l hl =>
    hclean l (List.mem_append_left _ hl)
  have hkept := scan_keeps (ls.map without_return) (without_return (last ++ w) :: more)
  have hlines : lines (terminated ls ++ last) = ls.map without_return ++ [last] := by
    rw [lines_terminated_append hls hlast, if_neg hne]
  have hopen := unclosed_render_source (ls.map without_return ++ [last])
    ((congrArg lines (unwrap_of_none hbuffer)).trans hlines)
  have hshown : shown (terminated ls ++ last) =
      lines (strip_empty_fenced_code_blocks (terminated ls ++ last)) := by
    rw [shown, render_source, unwrap_of_none hbuffer]
  rw [hmore]
  rcases lines_strip_unended hls hlast hne hself with
    ⟨hinside, hlines'⟩ | ⟨hinside, hfence, opening, hlines'⟩ | ⟨hinside, hfence, hlines'⟩
  · -- Outside of a block the last line is shown; when it is finished it is emitted.
    refine ⟨by rwa [hshown, hlines', List.dropLast_concat], fun hclosed hfinished => ?_⟩
    rw [hopen, scan_concat, Scan.next, hinside] at hclosed
    have hemitted : (scan (ls.map without_return ++ [last])).emitted =
        (scan (ls.map without_return)).emitted ++ [last] := by
      rw [scan_concat, Scan.next, hinside]
      cases hfence : is_fence last with
      | true => simp [hfence] at hclosed
      | false => simp
    rw [hlines] at hfinished
    obtain ⟨t, ht⟩ := hfinished
    rw [hshown, hlines', ← hemitted, ← ht]
    exact scan_keeps _ t
  · refine ⟨by rwa [hshown, hlines', List.dropLast_concat], fun hclosed _ => ?_⟩
    obtain ⟨block, hblock⟩ := Option.isSome_iff_exists.mp hinside
    rw [hopen, scan_concat, Scan.next, hblock] at hclosed
    simp [hfence] at hclosed
  · have hline := scan_closed hinside hfence (is_fence_longer hfence w)
    have hclosed : shown (terminated ls ++ last) <+:
        (scan (ls.map without_return ++ without_return (last ++ w) :: more)).emitted := by
      rw [hshown, List.append_cons]
      rw [hline] at hlines'
      exact hlines'.trans (scan_keeps _ more)
    exact ⟨(List.dropLast_prefix _).trans hclosed, fun _ _ => hclosed⟩

/-- An ended text has no unfinished line. -/
theorem last_of_ends {ls : List Text} {last : Text} (hlast : '\n' ∉ last)
    (h : ends_with (terminated ls ++ last) ['\n'] = true) : last = [] := by
  obtain ⟨r, hr⟩ := ends_with_iff.mp h
  by_contra hne
  apply unended_last ls hlast hne
  rw [hr, List.getLast?_concat]

/-- Nothing that is shown of a buffer is other than in the whole text, as long as the outer fence
stays what it is. -/
theorem shows_whole {buffer rest : Text} (hclean : Clean (ended (buffer ++ rest)))
    (houter : (outer_fence (lines buffer)).isSome =
      (outer_fence (lines (ended (buffer ++ rest)))).isSome) :
    Shows buffer (whole (ended (buffer ++ rest))).emitted
      (buffer = [] ∨ ends_with buffer ['\n'] = true ∨
        lines buffer <+: lines (ended (buffer ++ rest))) := by
  cases hbuffer : outer_fence (lines buffer) with
  | some inner =>
    rw [hbuffer] at houter
    obtain ⟨inner', htext⟩ := Option.isSome_iff_exists.mp houter.symm
    have hgrows := outer_fence_grows (lines_grow buffer rest) hbuffer htext
    exact shows_of_some hclean hbuffer htext hgrows
  | none =>
    rw [hbuffer] at houter
    have htext := Option.isNone_iff_eq_none.mp (Option.isSome_eq_false_iff.mp houter.symm)
    obtain ⟨ls, last, rfl, hls, hlast⟩ := exists_terminated buffer
    by_cases hne : last = []
    · subst hne
      rw [List.append_nil] at hclean hbuffer htext ⊢
      exact shows_ended hls hclean hbuffer htext
    · have hshows := shows_unended hls hlast hne hclean hbuffer htext
      refine ⟨hshows.but_last, fun hclosed hfinished => hshows.all hclosed ?_⟩
      rcases hfinished with hnil | hends | hlines
      · exact absurd (List.append_eq_nil_iff.mp hnil).2 hne
      · exact absurd (last_of_ends hlast hends) hne
      · exact hlines

/-- What is shown of the whole text. -/
theorem shown_whole {text : Text} (hclean : Clean text) (hends : ends_with text ['\n'] = true) :
    shown text = (whole text).result := by
  cases houter : outer_fence (lines text) with
  | some inner =>
    rw [shown_of_some houter fun l hl => hclean l (outer_fence_subset houter l hl), whole, houter]
    rfl
  | none =>
    obtain ⟨ls, last, rfl, hls, hlast⟩ := exists_terminated text
    obtain rfl := last_of_ends hlast hends
    rw [List.append_nil] at hclean houter ⊢
    rw [Clean, lines_of_terminated hls] at hclean
    rw [shown, render_source, unwrap_of_none houter, lines_strip_ended hls hclean, whole, houter,
      lines_of_terminated hls]
    rfl

/-! ## What is held back -/

namespace MarkdownStreamCollector

theorem hold_back_blank_le {Color : Type} [DecidableEq Color] (code_block_bg : Color)
    (rendered : List (Line Color)) (count : Nat) :
    hold_back_blank code_block_bg rendered count ≤ count := by
  unfold hold_back_blank
  split <;> omega

theorem hold_back_bullet_le {Color : Type} (buffer : Text) (rendered : List (Line Color))
    (count : Nat) :
    hold_back_bullet buffer rendered count ≤ count := by
  unfold hold_back_bullet
  split <;> omega

theorem hold_back_incomplete_le (buffer source : Text) (count : Nat) :
    hold_back_incomplete buffer source count ≤ count ∧
      (ends_with buffer ['\n'] = false → hold_back_incomplete buffer source count ≤ count - 1) := by
  unfold hold_back_incomplete
  cases ends_with buffer ['\n'] with
  | true => simp
  | false =>
    simp only [Bool.false_eq_true, ↓reduceIte, true_implies]
    split_ifs <;> omega

theorem hold_back_lists_le {Color : Type} (rendered : List (Line Color))
    (committed_line_count count : Nat) :
    hold_back_lists rendered committed_line_count count ≤ count := by
  induction count with
  | zero => exact Nat.le_refl 0
  | succ count ih =>
    unfold hold_back_lists
    split
    · exact Nat.le_succ_of_le ih
    · exact Nat.le_refl _

end MarkdownStreamCollector

/-! ## Runs -/

inductive Op where
  | push_delta (delta : Text)
  | commit_complete_lines
  | commit_soft_lines (relax_list_holdback relax_code_holdback : Bool)

def Op.delta : Op → Text
  | push_delta delta => delta
  | commit_complete_lines => []
  | commit_soft_lines _ _ => []

/-- The text that comes with some calls. -/
def pushed (ops : List Op) : Text := ops.flatMap Op.delta

/-- A text without the bullet of its first line. -/
def without_bullet : Text → Text
  | '-' :: second :: after =>
    if second = '\n' ∨ second = '\r' then second :: after
    else if is_whitespace second then after
    else '-' :: second :: after
  | t => t

namespace MarkdownStreamCollector

section

variable {Color : Type} [DecidableEq Color] (is_alphanumeric : Char → Bool)
  (code_block_bg : Color) (render : Bool → Text → Line Color)

def step (s : MarkdownStreamCollector) : Op → List (Line Color) × MarkdownStreamCollector
  | .push_delta delta => ([], s.push_delta delta)
  | .commit_complete_lines => s.commit_complete_lines is_alphanumeric code_block_bg render
  | .commit_soft_lines relax_list_holdback relax_code_holdback =>
    s.commit_soft_lines render relax_list_holdback relax_code_holdback

/-- The lines that the calls give out, and the last ones. -/
def run (s : MarkdownStreamCollector) : List Op → List (Line Color)
  | [] => (s.finalize_and_drain render).1
  | op :: ops =>
    (s.step is_alphanumeric code_block_bg render op).1 ++
      run (s.step is_alphanumeric code_block_bg render op).2 ops

/-- A call that gives out lines does so for good: the text counts as one outer markdown block as it
does in the end, and the line that it ends with, if it is an unfinished one, gets no more text. -/
def Settled (text rest : Text) (s : MarkdownStreamCollector) (op : Op) : Prop :=
  (s.step is_alphanumeric code_block_bg render op).1 ≠ [] →
    (outer_fence (lines s.buffer)).isSome = (outer_fence (lines text)).isSome ∧
      ((s.step is_alphanumeric code_block_bg render op).2.committed_line_count =
          (shown s.buffer).length →
        ends_with s.buffer ['\n'] = false →
        lines s.buffer <+: lines text ∧ (s.leading_bullet_state = none → rest = []))

instance (text rest : Text) (s : MarkdownStreamCollector) (op : Op) :
    Decidable (Settled is_alphanumeric code_block_bg render text rest s op) :=
  inferInstanceAs (Decidable (_ ≠ _ → _ ∧ (_ → _ → _ ∧ (_ → _))))

def AllSettled (text : Text) (s : MarkdownStreamCollector) : List Op → Prop
  | [] => True
  | op :: ops =>
    Settled is_alphanumeric code_block_bg render text (pushed ops) s op ∧
      AllSettled text (s.step is_alphanumeric code_block_bg render op).2 ops

instance AllSettled.decidable (text : Text) : (s : MarkdownStreamCollector) → (ops : List Op) →
    Decidable (AllSettled is_alphanumeric code_block_bg render text s ops)
  | _, [] => .isTrue trivial
  | s, op :: ops =>
    have := AllSettled.decidable text (s.step is_alphanumeric code_block_bg render op).2 ops
    inferInstanceAs (Decidable (_ ∧ _))

/-- A call gives out the lines up to a count, which does not reach the last one inside a block. -/
structure Gives (s : MarkdownStreamCollector) (count : Nat)
    (r : List (Line Color) × MarkdownStreamCollector) : Prop where
  more : s.committed_line_count < count
  le : count ≤ (shown s.buffer).length
  in_block : is_inside_unclosed_fence (render_source s.buffer) = true →
    count < (shown s.buffer).length
  out : r.1 = (((shown s.buffer).take count).drop s.committed_line_count).map
    (render s.bold_first_sentence)
  next : r.2 = { s with committed_line_count := count }

theorem commit_complete_cases (s : MarkdownStreamCollector) :
    s.commit_complete_lines is_alphanumeric code_block_bg render = ([], s) ∨
      ∃ count, Gives render s count
          (s.commit_complete_lines is_alphanumeric code_block_bg render) ∧
        (ends_with s.buffer ['\n'] = false → count < (shown s.buffer).length) := by
  unfold commit_complete_lines
  dsimp only
  have hblank := hold_back_blank_le code_block_bg
    (append_markdown render s.bold_first_sentence (render_source s.buffer))
    (append_markdown render s.bold_first_sentence (render_source s.buffer)).length
  generalize hold_back_blank code_block_bg _ _ = count at hblank ⊢
  have hbullet := hold_back_bullet_le s.buffer
    (append_markdown render s.bold_first_sentence (render_source s.buffer)) count
  generalize hold_back_bullet _ _ _ = count₂ at hbullet ⊢
  have hincomplete := hold_back_incomplete_le s.buffer (render_source s.buffer) count₂
  generalize hold_back_incomplete _ _ _ = count₃ at hincomplete ⊢
  have hlists := hold_back_lists_le
    (append_markdown render s.bold_first_sentence (render_source s.buffer))
    s.committed_line_count count₃
  generalize hold_back_lists _ _ _ = count₄ at hlists ⊢
  have hlength : (append_markdown render s.bold_first_sentence
      (render_source s.buffer)).length = (shown s.buffer).length := List.length_map _
  rw [hlength] at hblank
  split
  · exact .inl rfl
  rename_i hmore
  split
  · exact .inl rfl
  rename_i hclosed
  split
  · exact .inl rfl
  refine .inr ⟨count₄, ⟨by omega, by omega, fun h => absurd h hclosed, ?_, rfl⟩, ?_⟩
  · simp [append_markdown, shown, List.map_take, List.map_drop]
  · intro hunended
    have hless := hincomplete.2 hunended
    omega

omit [DecidableEq Color] in
theorem gives_up_to (s : MarkdownStreamCollector) {count : Nat}
    (hle : count ≤ (shown s.buffer).length)
    (hblock : is_inside_unclosed_fence (render_source s.buffer) = true →
      count ≤ (shown s.buffer).length - 1) :
    let rendered := append_markdown render s.bold_first_sentence (render_source s.buffer)
    let r := if count ≤ s.committed_line_count then ([], s)
      else
        ((rendered.take count).drop s.committed_line_count,
          { s with committed_line_count := count })
    r = ([], s) ∨ ∃ count, Gives render s count r := by
  intro rendered r
  by_cases hmore : count ≤ s.committed_line_count
  · exact .inl (if_pos hmore)
  · have hr : r = _ := if_neg hmore
    rw [hr]
    refine .inr ⟨count, ⟨by omega, hle, fun h => ?_, ?_, rfl⟩⟩
    · have hless := hblock h
      omega
    · simp [rendered, append_markdown, shown, List.map_take, List.map_drop]

omit [DecidableEq Color] in
theorem commit_soft_cases (s : MarkdownStreamCollector)
    (relax_list_holdback relax_code_holdback : Bool) :
    s.commit_soft_lines render relax_list_holdback relax_code_holdback = ([], s) ∨
      ∃ count, Gives render s count
        (s.commit_soft_lines render relax_list_holdback relax_code_holdback) := by
  have hlength : (append_markdown render s.bold_first_sentence
      (render_source s.buffer)).length = (shown s.buffer).length := List.length_map _
  unfold commit_soft_lines
  dsimp only
  rw [hlength]
  split
  · exact .inl rfl
  split
  · exact .inl rfl
  rename_i hrelaxed
  have hblock : (if is_inside_unclosed_fence (render_source s.buffer) && relax_code_holdback
        then (shown s.buffer).length - 1 else (shown s.buffer).length) ≤ (shown s.buffer).length ∧
      (is_inside_unclosed_fence (render_source s.buffer) = true →
        (if is_inside_unclosed_fence (render_source s.buffer) && relax_code_holdback
          then (shown s.buffer).length - 1 else (shown s.buffer).length) ≤
            (shown s.buffer).length - 1) := by
    revert hrelaxed
    cases is_inside_unclosed_fence (render_source s.buffer) <;> cases relax_code_holdback <;> simp
  generalize (if is_inside_unclosed_fence (render_source s.buffer) && relax_code_holdback
    then (shown s.buffer).length - 1 else (shown s.buffer).length) = stop at hblock ⊢
  obtain ⟨hle, hopen⟩ := hblock
  split
  · apply gives_up_to
    · omega
    · intro h
      have hless := hopen h
      omega
  · exact gives_up_to render s hle hopen

/-! ## The bullet -/

theorem strip_cases (s : MarkdownStreamCollector) (hstate : s.leading_bullet_state = none)
    (hcommitted : s.committed_line_count = 0) :
    (s.strip_leading_bullet_if_first_line = s ∧ (s.buffer = [] ∨ s.buffer = ['-'])) ∨
      ∃ buffer removed, s.strip_leading_bullet_if_first_line =
          { s with buffer := buffer, leading_bullet_state := some removed } ∧
        ∀ rest, without_bullet (s.buffer ++ rest) = buffer ++ rest := by
  unfold strip_leading_bullet_if_first_line
  rw [if_neg (by simp [hstate, hcommitted])]
  split
  · rename_i hbuffer
    exact .inl ⟨rfl, .inl hbuffer⟩
  rename_i first rest hbuffer
  by_cases hfirst : first = '-'
  · subst hfirst
    rw [if_neg (by simp)]
    split
    · rename_i second after
      refine .inr ?_
      have hreturn : is_whitespace '\n' = true ∧ is_whitespace '\r' = true ∧
        is_whitespace ' ' = true ∧ is_whitespace '\t' = true := by decide
      split_ifs with hspace hline hwhite
      · refine ⟨after, true, rfl, fun rest => ?_⟩
        rcases hspace with rfl | rfl <;> simp [hbuffer, without_bullet, hreturn]
      · refine ⟨second :: after, true, rfl, fun rest => ?_⟩
        simp [hbuffer, without_bullet, hline]
      · refine ⟨after, true, rfl, fun rest => ?_⟩
        simp [hbuffer, without_bullet, hline, hwhite]
      · refine ⟨s.buffer, false, rfl, fun rest => ?_⟩
        simp [hbuffer, without_bullet, hline, hwhite]
    · exact .inl ⟨rfl, .inr hbuffer⟩
  · rw [if_pos hfirst]
    refine .inr ⟨s.buffer, false, rfl, fun rest => ?_⟩
    rw [hbuffer, List.cons_append, without_bullet]
    rintro second after heq
    exact hfirst (List.cons.inj heq).1

/-! ## What a run gives out -/

/-- A collector in a run: `text` is what it holds in the end, `rest` is still to come. -/
structure Holds (text rest : Text) (s : MarkdownStreamCollector) : Prop where
  pending : s.pending_section_break = false
  committed : s.committed_line_count ≤ (whole (ended text)).emitted.length
  decided : s.leading_bullet_state ≠ none → text = s.buffer ++ rest
  undecided : s.leading_bullet_state = none →
    text = without_bullet (s.buffer ++ rest) ∧ (s.buffer = [] ∨ s.buffer = ['-']) ∧
      (s.committed_line_count = 0 ∨ rest = [])

theorem without_bullet_short {buffer : Text} (h : buffer = [] ∨ buffer = ['-']) :
    without_bullet buffer = buffer := by
  rcases h with rfl | rfl <;> rfl

/-- The bullet is a matter of the buffer only. -/
theorem strip_eq (s : MarkdownStreamCollector) : ∃ buffer state,
    s.strip_leading_bullet_if_first_line =
      { s with buffer := buffer, leading_bullet_state := state } := by
  unfold strip_leading_bullet_if_first_line
  split
  · exact ⟨_, _, rfl⟩
  split
  · exact ⟨_, _, rfl⟩
  split
  · exact ⟨_, _, rfl⟩
  split
  · split_ifs <;> exact ⟨_, _, rfl⟩
  · exact ⟨_, _, rfl⟩

theorem push_delta_eq {s : MarkdownStreamCollector} (h : s.pending_section_break = false)
    (delta : Text) : s.push_delta delta =
      strip_leading_bullet_if_first_line { s with buffer := s.buffer ++ delta } := by
  obtain ⟨buffer, state, heq⟩ := strip_eq { s with buffer := s.buffer ++ delta }
  rw [push_delta, heq, h]
  simp

theorem strip_eq_self {s : MarkdownStreamCollector}
    (h : s.leading_bullet_state ≠ none ∨ s.committed_line_count ≠ 0) :
    s.strip_leading_bullet_if_first_line = s := by
  unfold strip_leading_bullet_if_first_line
  apply if_pos
  rcases h with hstate | hcommitted
  · simp [Option.isSome_iff_ne_none.mpr hstate]
  · simp [Nat.pos_of_ne_zero hcommitted]

/-- When all of the text has come, or the bullet is decided, the rest goes to the buffer. -/
theorem Holds.text_eq {text rest : Text} {s : MarkdownStreamCollector} (h : s.Holds text rest)
    (hrest : s.leading_bullet_state = none → rest = []) : text = s.buffer ++ rest := by
  cases hstate : s.leading_bullet_state with
  | none =>
    obtain ⟨htext, hbuffer, -⟩ := h.undecided hstate
    rw [htext, hrest hstate, List.append_nil, without_bullet_short hbuffer]
  | some removed => exact h.decided (by simp [hstate])

theorem Holds.push {text delta rest : Text} {s : MarkdownStreamCollector}
    (h : s.Holds text (delta ++ rest)) : (s.push_delta delta).Holds text rest := by
  rw [push_delta_eq h.pending]
  by_cases hstate : s.leading_bullet_state = none
  · obtain ⟨htext, hbuffer, hcommitted⟩ := h.undecided hstate
    by_cases hzero : s.committed_line_count = 0
    · rw [← List.append_assoc] at htext
      rcases strip_cases { s with buffer := s.buffer ++ delta } hstate hzero with
        ⟨heq, hshort⟩ | ⟨buffer, removed, heq, hremoved⟩
      · rw [heq]
        exact ⟨h.pending, h.committed, fun hne => absurd hstate hne,
          fun _ => ⟨htext, hshort, .inl hzero⟩⟩
      · rw [heq]
        exact ⟨h.pending, h.committed, fun _ => htext.trans (hremoved rest),
          fun hnone => by cases hnone⟩
    · obtain ⟨rfl, rfl⟩ := List.append_eq_nil_iff.mp (hcommitted.resolve_left hzero)
      rw [List.append_nil, strip_eq_self (.inr hzero)]
      exact h
  · rw [strip_eq_self (s := { s with buffer := s.buffer ++ delta }) (.inl hstate)]
    exact ⟨h.pending, h.committed, fun _ => by simp [h.decided hstate],
      fun hnone => absurd hnone hstate⟩

omit [DecidableEq Color] in
/-- A settled call gives out lines of the whole text. -/
theorem Holds.gives {text rest : Text} {s : MarkdownStreamCollector} {count : Nat}
    {r : List (Line Color) × MarkdownStreamCollector} (h : s.Holds text rest)
    (hclean : Clean (ended text)) (hgives : Gives render s count r)
    (houter : (outer_fence (lines s.buffer)).isSome = (outer_fence (lines (ended text))).isSome)
    (hlast : count = (shown s.buffer).length → ends_with s.buffer ['\n'] = false →
      lines s.buffer <+: lines (ended text))
    (hstate : s.leading_bullet_state = none → rest = []) :
    r.2.Holds text rest ∧ ∀ more, (whole (ended text)).emitted <+: more →
      r.1 ++ (more.drop r.2.committed_line_count).map (render r.2.bold_first_sentence) =
        (more.drop s.committed_line_count).map (render s.bold_first_sentence) := by
  have htext := h.text_eq hstate
  rw [htext] at hclean houter hlast
  have hshows := shows_whole hclean houter
  rw [← htext] at hshows
  have hkept : (shown s.buffer).take count <+: (whole (ended text)).emitted := by
    rcases Nat.lt_or_ge count (shown s.buffer).length with hless | hall
    · refine List.IsPrefix.trans ?_ hshows.but_last
      rw [List.dropLast_eq_take]
      exact List.take_prefix_take_left (by omega)
    · have hcount : count = (shown s.buffer).length := Nat.le_antisymm hgives.le hall
      rw [List.take_of_length_le hall]
      apply hshows.all
      · by_contra hopen
        have hless := hgives.in_block (by simpa using hopen)
        omega
      · cases hends : ends_with s.buffer ['\n'] with
        | true => exact .inr (.inl rfl)
        | false => exact .inr (.inr (htext ▸ hlast hcount hends))
  have hle : count ≤ (whole (ended text)).emitted.length := by
    have hlength := hkept.length_le
    rwa [List.length_take, Nat.min_eq_left hgives.le] at hlength
  rw [hgives.next]
  refine ⟨⟨h.pending, hle, h.decided, fun hnone => ?_⟩, fun more hmore => ?_⟩
  · obtain ⟨hrest, hbuffer, -⟩ := h.undecided hnone
    exact ⟨hrest, hbuffer, .inr (hstate hnone)⟩
  · obtain ⟨t, rfl⟩ := hkept.trans hmore
    have hlength : ((shown s.buffer).take count).length = count := by
      rw [List.length_take, Nat.min_eq_left hgives.le]
    rw [hgives.out, ← List.map_append, List.drop_left' hlength,
      List.drop_append_of_le_length (by rw [hlength]; exact hgives.more.le)]

theorem shown_short {buffer : Text} (h : buffer = [] ∨ buffer = ['-']) :
    (shown buffer).length = buffer.length ∧ ends_with buffer ['\n'] = false := by
  rcases h with rfl | rfl <;> decide +kernel

omit [DecidableEq Color] in
/-- As long as the bullet is undecided a call can only give out the line that it begins. -/
theorem Gives.undecided {s : MarkdownStreamCollector} {count : Nat}
    {r : List (Line Color) × MarkdownStreamCollector} (h : Gives render s count r)
    (hbuffer : s.buffer = [] ∨ s.buffer = ['-']) :
    count = (shown s.buffer).length ∧ ends_with s.buffer ['\n'] = false := by
  obtain ⟨hlength, hends⟩ := shown_short hbuffer
  have hmore := h.more
  have hle := h.le
  have hshort : s.buffer.length ≤ 1 := by
    rcases hbuffer with heq | heq <;> simp [heq]
  exact ⟨by omega, hends⟩

omit [DecidableEq Color] in
theorem Gives.out_ne_nil {s : MarkdownStreamCollector} {count : Nat}
    {r : List (Line Color) × MarkdownStreamCollector} (h : Gives render s count r) : r.1 ≠ [] := by
  have hmore := h.more
  have hle := h.le
  rw [h.out, Ne, List.map_eq_nil_iff, List.drop_eq_nil_iff, List.length_take]
  omega

/-- A call gives out nothing or lines of the whole text. -/
theorem Holds.step {text rest : Text} {s : MarkdownStreamCollector} {op : Op}
    (h : s.Holds text (op.delta ++ rest)) (hclean : Clean (ended text))
    (hsettled : Settled is_alphanumeric code_block_bg render (ended text) rest s op) :
    let r := s.step is_alphanumeric code_block_bg render op
    r.2.Holds text rest ∧ ∀ more, (whole (ended text)).emitted <+: more →
      r.1 ++ (more.drop r.2.committed_line_count).map (render r.2.bold_first_sentence) =
        (more.drop s.committed_line_count).map (render s.bold_first_sentence) := by
  intro r
  cases op with
  | push_delta delta =>
    obtain ⟨buffer, state, heq⟩ := strip_eq { s with buffer := s.buffer ++ delta }
    refine ⟨h.push, fun more _ => ?_⟩
    have hnext : r = ([], { s with buffer := buffer, leading_bullet_state := state }) :=
      congrArg (Prod.mk []) ((push_delta_eq h.pending delta).trans heq)
    rw [hnext, List.nil_append]
  | commit_complete_lines =>
    rcases commit_complete_cases is_alphanumeric code_block_bg render s with
      hnone | ⟨count, hgives, hunended⟩
    · have hr : r = ([], s) := hnone
      rw [hr]
      exact ⟨h, fun more _ => List.nil_append _⟩
    · have hnot (hcount : count = (shown s.buffer).length)
          (hends : ends_with s.buffer ['\n'] = false) : False := by
        have hless := hunended hends
        omega
      obtain ⟨houter, -⟩ := hsettled hgives.out_ne_nil
      apply Holds.gives render h hclean hgives houter
      · exact fun hcount hends => (hnot hcount hends).elim
      · intro hstate
        obtain ⟨-, hbuffer, -⟩ := h.undecided hstate
        obtain ⟨hcount, hends⟩ := hgives.undecided render hbuffer
        exact (hnot hcount hends).elim
  | commit_soft_lines relax_list_holdback relax_code_holdback =>
    rcases commit_soft_cases render s relax_list_holdback relax_code_holdback with
      hnone | ⟨count, hgives⟩
    · have hr : r = ([], s) := hnone
      rw [hr]
      exact ⟨h, fun more _ => List.nil_append _⟩
    · obtain ⟨houter, hlast⟩ := hsettled hgives.out_ne_nil
      have hcommitted : r.2.committed_line_count = count := by
        rw [show r.2 = _ from hgives.next]
      apply Holds.gives render h hclean hgives houter
      · exact fun hcount hends => (hlast (hcommitted.trans hcount) hends).1
      · intro hstate
        obtain ⟨-, hbuffer, -⟩ := h.undecided hstate
        obtain ⟨hcount, hends⟩ := hgives.undecided render hbuffer
        exact (hlast (hcommitted.trans hcount) hends).2 hstate

theorem run_eq {text : Text} {s : MarkdownStreamCollector} {ops : List Op}
    (h : s.Holds text (pushed ops)) (hclean : Clean (ended text))
    (hsettled : AllSettled is_alphanumeric code_block_bg render (ended text) s ops) :
    s.run is_alphanumeric code_block_bg render ops =
      ((whole (ended text)).result.drop s.committed_line_count).map
        (render s.bold_first_sentence) := by
  induction ops generalizing s with
  | nil =>
    have htext : text = s.buffer := by simpa [pushed] using h.text_eq fun _ => rfl
    rw [htext] at hclean ⊢
    have hshown : append_markdown render s.bold_first_sentence (render_source (ended s.buffer)) =
        (whole (ended s.buffer)).result.map (render s.bold_first_sentence) :=
      congrArg _ (shown_whole hclean (ended_ends _))
    rw [run, finalize_and_drain, hshown, List.map_drop]
    dsimp only
    split
    · rename_i hle
      exact (List.drop_of_length_le hle).symm
    · rfl
  | cons op ops ih =>
    obtain ⟨hop, hops⟩ := hsettled
    obtain ⟨hnext, hgives⟩ := h.step is_alphanumeric code_block_bg render hclean hop
    rw [run, ih hnext hops]
    exact hgives _ (List.prefix_append _ _)

/-- A fresh collector. -/
def fresh (bold_first_sentence : Bool) : MarkdownStreamCollector :=
  if bold_first_sentence then new_with_bold_first else new

theorem fresh_eq (bold_first_sentence : Bool) :
    fresh bold_first_sentence = ⟨[], 0, bold_first_sentence, false, none⟩ := by
  cases bold_first_sentence <;> rfl

end

/-- A renderer that shows each line as it is. -/
def verbatim (_ : Bool) (line : Text) : Line Unit := ⟨[⟨line, none⟩], none⟩

-- What is added to a line after a soft commit is not given out.
example : new.run Char.isAlphanum () verbatim [.push_delta "hello".toList,
    .commit_soft_lines false false, .push_delta " world\n".toList] =
      [verbatim false "hello".toList] := by
  decide +kernel

end MarkdownStreamCollector

end Ecode.markdown_stream
