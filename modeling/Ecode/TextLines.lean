-- Laws of the text functions: what a prefix leaves, when a text is trimmed
-- already, lower case, and the lines of a text that is put together from lines.
import Ecode.Text

namespace Ecode.Text

/-! ## Lower case -/

/-- Lower case leaves every other character. -/
theorem mem_to_ascii_lowercase {t : Text} {c : Char} (hc : ¬ ('A' ≤ c ∧ c ≤ 'Z')) (h : c ∈ t) :
    c ∈ Text.to_ascii_lowercase t := by
  apply List.mem_map.mpr
  exact ⟨c, h, if_neg hc⟩

/-- Only a hyphen has a hyphen as its lower case. -/
theorem hyphen_of_lowercase {c : Char}
    (h : (if 'A' ≤ c ∧ c ≤ 'Z' then Char.ofNat (c.toNat + 32) else c) = '-') : c = '-' := by
  split_ifs at h with hupper
  · have hlow : 65 ≤ c.toNat := hupper.1
    have hhigh : c.toNat ≤ 90 := hupper.2
    have hvalid : (c.toNat + 32).isValidChar := .inl (by omega)
    have hcode := congrArg Char.toNat h
    rw [Char.toNat_ofNat, if_pos hvalid] at hcode
    change c.toNat + 32 = 45 at hcode
    omega
  · exact h

/-! ## Prefixes -/

@[simp] theorem strip_prefix_append (p t : Text) : Text.strip_prefix (p ++ t) p = some t := by
  induction p with
  | nil => cases t <;> rfl
  | cons c p ih =>
    unfold Text.strip_prefix
    rw [List.cons_append]
    simpa using ih

theorem eq_append_of_strip_prefix {t p s : Text} (h : Text.strip_prefix t p = some s) :
    t = p ++ s := by
  induction p generalizing t with
  | nil =>
    cases t <;> exact Option.some.inj h
  | cons c p ih =>
    rcases t with _ | ⟨d, t⟩
    · cases h
    · simp only [Text.strip_prefix] at h
      split_ifs at h with hc
      rw [hc, ih h, List.cons_append]

/-- A prefix of another text is not a prefix when the two differ at one place. -/
theorem strip_prefix_eq_none {p q : Text} (t : Text) (h : Text.strip_prefix q p = none)
    (hlen : p.length ≤ q.length) : Text.strip_prefix (q ++ t) p = none := by
  induction p generalizing q with
  | nil => cases q <;> simp [Text.strip_prefix] at h
  | cons c p ih =>
    rcases q with _ | ⟨d, q⟩
    · simp at hlen
    · simp only [Text.strip_prefix, List.cons_append] at h ⊢
      split_ifs at h ⊢ with hc
      · exact ih h (by simpa using hlen)
      · rfl

/-! ## Trimming -/

theorem trim_start_eq_self {t : Text} (h : ∀ c ∈ t.head?, is_whitespace c = false) :
    trim_start t = t := by
  unfold trim_start
  cases t with
  | nil => rfl
  | cons c t => simp [h c rfl]

theorem trim_end_eq_self {t : Text} (h : ∀ c ∈ t.getLast?, is_whitespace c = false) :
    trim_end t = t := by
  have hreverse : t.reverse.dropWhile is_whitespace = t.reverse := by
    apply trim_start_eq_self
    rwa [List.head?_reverse]
  unfold trim_end
  rw [hreverse, List.reverse_reverse]

theorem trim_eq_self {t : Text} (hhead : ∀ c ∈ t.head?, is_whitespace c = false)
    (hlast : ∀ c ∈ t.getLast?, is_whitespace c = false) : trim t = t := by
  unfold trim
  rw [trim_start_eq_self hhead, trim_end_eq_self hlast]

/-- A line that begins with a character that trimming keeps is not blank. -/
theorem trim_ne_nil {line : Text} {c : Char} (hc : line.head? = some c)
    (hkeep : is_whitespace c = false) : trim line ≠ [] := by
  intro hnil
  rcases line with _ | ⟨d, line⟩
  · cases hc
  · obtain rfl : d = c := Option.some.inj hc
    have hdrop : (d :: line).reverse.dropWhile is_whitespace = [] := by
      have hstart : trim_start (d :: line) = d :: line :=
        trim_start_eq_self (by simpa using hkeep)
      unfold trim trim_end at hnil
      rw [hstart] at hnil
      simpa using hnil
    rw [List.dropWhile_eq_nil_iff] at hdrop
    have hwhite := hdrop d (by simp)
    rw [hkeep] at hwhite
    cases hwhite

/-- The last character of a text that is trimmed is none that trimming drops. -/
theorem getLast_of_trim {t : Text} (h : trim t = t) {c : Char} (hc : c ∈ t.getLast?) :
    is_whitespace c = false := by
  have hend : (trim_end (trim_start t)).getLast? = some c := by
    rw [show trim_end (trim_start t) = t from h]
    exact hc
  unfold trim_end at hend
  rw [List.getLast?_reverse] at hend
  have hhead := List.head?_dropWhile_not is_whitespace (trim_start t).reverse
  rw [hend] at hhead
  simpa using hhead

theorem trim_end_append {t w : Text} (hlast : ∀ c ∈ t.getLast?, is_whitespace c = false)
    (hw : ∀ c ∈ w, is_whitespace c = true) : trim_end (t ++ w) = t := by
  have hdrop : (t ++ w).reverse.dropWhile is_whitespace = t.reverse.dropWhile is_whitespace := by
    rw [List.reverse_append, List.dropWhile_append_of_pos (by simpa using hw)]
  unfold trim_end
  rw [hdrop]
  exact trim_end_eq_self hlast

/-- What is trimmed after a text. -/
theorem trim_append {t w : Text} (hne : t ≠ []) (hhead : ∀ c ∈ t.head?, is_whitespace c = false)
    (hlast : ∀ c ∈ t.getLast?, is_whitespace c = false)
    (hw : ∀ c ∈ w, is_whitespace c = true) : trim (t ++ w) = t := by
  unfold trim
  rw [trim_start_eq_self (t := t ++ w), trim_end_append hlast hw]
  intro c hc
  apply hhead c
  rwa [List.head?_append_of_ne_nil t hne] at hc

/-! ## Lines -/

/-- Lines with a line feed after each. -/
def terminated (ls : List Text) : Text := ls.flatMap (· ++ ['\n'])

theorem terminated_cons_append (l : Text) (ls : List Text) (t : Text) :
    terminated (l :: ls) ++ t = l ++ '\n' :: (terminated ls ++ t) := by
  simp [terminated]

theorem terminated_append (ls ms : List Text) :
    terminated (ls ++ ms) = terminated ls ++ terminated ms :=
  List.flatMap_append

/-- Every text is made of lines and a last one that does not end. -/
theorem exists_terminated (t : Text) :
    ∃ ls last, t = terminated ls ++ last ∧ (∀ l ∈ ls, '\n' ∉ l) ∧ '\n' ∉ last := by
  induction t with
  | nil => exact ⟨[], [], rfl, List.forall_mem_nil _, List.not_mem_nil⟩
  | cons c t ih =>
    obtain ⟨ls, last, rfl, hls, hlast⟩ := ih
    by_cases hc : c = '\n'
    · refine ⟨[] :: ls, last, ?_, List.forall_mem_cons.mpr ⟨List.not_mem_nil, hls⟩, hlast⟩
      rw [terminated_cons_append, hc]
      rfl
    · cases ls with
      | nil =>
        refine ⟨[], c :: last, rfl, hls, ?_⟩
        rw [List.mem_cons, not_or]
        exact ⟨Ne.symm hc, hlast⟩
      | cons l ls =>
        rw [List.forall_mem_cons] at hls
        refine ⟨(c :: l) :: ls, last, ?_, ?_, hlast⟩
        · rw [terminated_cons_append, terminated_cons_append]
          rfl
        · rw [List.forall_mem_cons, List.mem_cons, not_or]
          exact ⟨⟨Ne.symm hc, hls.1⟩, hls.2⟩

theorem split_inclusive_line {l : Text} (h : '\n' ∉ l) (rest : Text) :
    split_inclusive (l ++ '\n' :: rest) = (l ++ ['\n']) :: split_inclusive rest := by
  induction l with
  | nil => simp [split_inclusive]
  | cons c l ih =>
    have hc : c ≠ '\n' := fun heq => h (heq ▸ List.mem_cons_self)
    have hl : '\n' ∉ l := fun hmem => h (List.mem_cons_of_mem _ hmem)
    simp only [List.cons_append, split_inclusive, if_neg hc, ih hl]

theorem split_inclusive_last {l : Text} (h : '\n' ∉ l) (hne : l ≠ []) :
    split_inclusive l = [l] := by
  induction l with
  | nil => exact absurd rfl hne
  | cons c l ih =>
    have hc : c ≠ '\n' := fun heq => h (heq ▸ List.mem_cons_self)
    have hl : '\n' ∉ l := fun hmem => h (List.mem_cons_of_mem _ hmem)
    rcases l with _ | ⟨d, l⟩
    · simp [split_inclusive, hc]
    · rw [split_inclusive, if_neg hc, ih hl (by simp)]

theorem strip_suffix_append (t s : Text) : Text.strip_suffix (t ++ s) s = some t := by
  simp [Text.strip_suffix]

theorem eq_append_of_strip_suffix {t s l : Text} (h : Text.strip_suffix t s = some l) :
    t = l ++ s := by
  obtain ⟨r, hr, rfl⟩ := Option.map_eq_some_iff.mp h
  rw [← List.reverse_inj, List.reverse_append, List.reverse_reverse]
  exact eq_append_of_strip_prefix hr

/-- A suffix of one character is stripped just from the texts that end in it. -/
theorem strip_suffix_singleton {t : Text} {c : Char} (h : t.getLast? ≠ some c) :
    Text.strip_suffix t [c] = none := by
  unfold Text.strip_suffix
  rw [← List.head?_reverse] at h
  rcases hr : t.reverse with _ | ⟨d, r⟩
  · rfl
  · have hd : d ≠ c := by
      rintro rfl
      rw [hr] at h
      exact h rfl
    simp [Text.strip_prefix, hd]

theorem chomp_line {l : Text} (h : l.getLast? ≠ some '\r') : chomp (l ++ ['\n']) = l := by
  unfold chomp
  rw [strip_suffix_append]
  dsimp only
  rw [strip_suffix_singleton h]
  rfl

theorem chomp_last {l : Text} (h : '\n' ∉ l) : chomp l = l := by
  unfold chomp
  rw [strip_suffix_singleton]
  intro hlast
  exact h (List.mem_of_getLast? hlast)

/-- The lines of a text are those it was put together from. -/
theorem lines_terminated {ls : List Text} {last : Text} (h : ∀ l ∈ ls, '\n' ∉ l)
    (hr : ∀ l ∈ ls, l.getLast? ≠ some '\r') (hlast : '\n' ∉ last) (hne : last ≠ []) :
    lines (terminated ls ++ last) = ls ++ [last] := by
  unfold lines
  induction ls with
  | nil =>
    simp only [terminated, List.flatMap_nil, List.nil_append]
    rw [split_inclusive_last hlast hne, List.map_singleton, chomp_last hlast]
  | cons l ls ih =>
    rw [terminated_cons_append, split_inclusive_line (h l List.mem_cons_self), List.map_cons,
      chomp_line (hr l List.mem_cons_self), ih (fun m hm => h m (List.mem_cons_of_mem _ hm))
        (fun m hm => hr m (List.mem_cons_of_mem _ hm)), List.cons_append]

/-! ## Splitting and joining at line feeds -/

/-- Induction on the lines of a text. -/
theorem line_induction {motive : Text → Prop} (last : ∀ l, '\n' ∉ l → motive l)
    (line : ∀ l rest, '\n' ∉ l → motive rest → motive (l ++ '\n' :: rest)) (t : Text) :
    motive t := by
  generalize hlen : t.length = n
  induction n using Nat.strong_induction_on generalizing t with
  | _ n ih =>
    by_cases hmem : '\n' ∈ t
    · obtain ⟨l, rest, rfl, hl⟩ := List.eq_append_cons_of_mem hmem
      exact line l rest hl (ih rest.length (by simp [← hlen]; omega) rest rfl)
    · exact last t hmem

theorem split_ne_nil (sep : Char) (t : Text) : split sep t ≠ [] := by
  cases t with
  | nil => simp [split]
  | cons c t =>
    unfold split
    split_ifs
    · simp
    · cases split sep t <;> simp

theorem split_line {sep : Char} {l : Text} (h : sep ∉ l) (rest : Text) :
    split sep (l ++ sep :: rest) = l :: split sep rest := by
  induction l with
  | nil => simp [split]
  | cons c l ih =>
    rw [List.mem_cons, not_or] at h
    simp only [List.cons_append, split, if_neg (Ne.symm h.1), ih h.2]

theorem split_last {sep : Char} {l : Text} (h : sep ∉ l) : split sep l = [l] := by
  induction l with
  | nil => rfl
  | cons c l ih =>
    rw [List.mem_cons, not_or] at h
    rw [split, if_neg (Ne.symm h.1), ih h.2]

theorem split_terminated {ls : List Text} {last : Text} (h : ∀ l ∈ ls, '\n' ∉ l)
    (hlast : '\n' ∉ last) : split '\n' (terminated ls ++ last) = ls ++ [last] := by
  induction ls with
  | nil => exact split_last hlast
  | cons l ls ih =>
    rw [List.forall_mem_cons] at h
    rw [terminated_cons_append, split_line h.1, ih h.2, List.cons_append]

/-- A final empty line stands for the end of the line before it. -/
theorem join_append_empty (sep : Text) (ls : List Text) :
    join sep (ls ++ [[]]) = ls.flatMap (· ++ sep) := by
  induction ls with
  | nil => rfl
  | cons l ls ih =>
    have hcons : join sep (l :: (ls ++ [[]])) = l ++ sep ++ join sep (ls ++ [[]]) := by
      cases ls <;> rfl
    rw [List.cons_append, hcons, ih, List.flatMap_cons]

theorem contains_cons (c : Char) (t p : Text) :
    contains (c :: t) p = (p.isPrefixOf (c :: t) || contains t p) := by
  simp [contains]

theorem crlf_begins_iff (c : Char) (t : Text) :
    List.isPrefixOf "\r\n".toList (c :: t) = true ↔ c = '\r' ∧ t.head? = some '\n' := by
  change (('\r' == c) && List.isPrefixOf ['\n'] t) = true ↔ _
  cases t with
  | nil => simp [List.isPrefixOf]
  | cons d t =>
    simp only [List.isPrefixOf, Bool.and_true, Bool.and_eq_true, beq_iff_eq, List.head?_cons,
      Option.some.injEq]
    exact and_congr eq_comm eq_comm

/-- A carriage return with a line feed is looked for in one line after the other. -/
theorem contains_crlf_line {l : Text} (h : '\n' ∉ l) (rest : Text) :
    contains (l ++ '\n' :: rest) "\r\n".toList =
      (decide (l.getLast? = some '\r') || contains rest "\r\n".toList) := by
  induction l with
  | nil =>
    rw [List.nil_append, contains_cons]
    rfl
  | cons c l ih =>
    have hl : '\n' ∉ l := fun hmem => h (List.mem_cons_of_mem _ hmem)
    rw [List.cons_append, contains_cons, ih hl]
    rw [Bool.eq_iff_iff, Bool.or_eq_true, crlf_begins_iff]
    cases l with
    | nil => simp
    | cons d l =>
      have hd : d ≠ '\n' := fun heq => hl (heq ▸ List.mem_cons_self)
      simp [hd]

theorem contains_crlf_last {l : Text} (h : '\n' ∉ l) :
    contains l "\r\n".toList = false := by
  induction l with
  | nil => rfl
  | cons c l ih =>
    have hl : '\n' ∉ l := fun hmem => h (List.mem_cons_of_mem _ hmem)
    rw [contains_cons, ih hl, Bool.or_false, Bool.eq_false_iff, ne_eq, crlf_begins_iff]
    rintro ⟨-, hhead⟩
    exact hl (List.mem_of_mem_head? hhead)

/-- A file has such a line end when one of its lines has. -/
theorem contains_crlf_iff {ls : List Text} {last : Text} (h : ∀ l ∈ ls, '\n' ∉ l)
    (hlast : '\n' ∉ last) :
    contains (terminated ls ++ last) "\r\n".toList = true ↔
      ∃ l ∈ ls, l.getLast? = some '\r' := by
  induction ls with
  | nil =>
    rw [show terminated [] ++ last = last from rfl, contains_crlf_last hlast]
    simp
  | cons l ls ih =>
    rw [List.forall_mem_cons] at h
    rw [terminated_cons_append, contains_crlf_line h.1, Bool.or_eq_true, decide_eq_true_iff, ih h.2]
    simp

/-! ## Lines with their ends -/

theorem split_inclusive_terminated {ls : List Text} (h : ∀ l ∈ ls, '\n' ∉ l) (t : Text) :
    split_inclusive (terminated ls ++ t) = ls.map (· ++ ['\n']) ++ split_inclusive t := by
  induction ls with
  | nil => rfl
  | cons l ls ih =>
    rw [List.forall_mem_cons] at h
    rw [terminated_cons_append, split_inclusive_line h.1, ih h.2]
    rfl

/-- A text that ends in a line feed is made of lines. -/
theorem exists_lines (l : Text) :
    ∃ ls, l ++ ['\n'] = terminated ls ∧ ∀ l ∈ ls, '\n' ∉ l := by
  obtain ⟨ls, last, rfl, hls, hlast⟩ := exists_terminated l
  refine ⟨ls ++ [last], ?_, ?_⟩
  · rw [terminated_append, List.append_assoc]
    simp [terminated]
  · intro l hl
    rcases List.mem_append.mp hl with hl | hl
    · exact hls l hl
    · exact List.mem_singleton.mp hl ▸ hlast

/-- A line feed ends a piece, whatever is before it. -/
theorem split_inclusive_append (l t : Text) :
    split_inclusive (l ++ ['\n'] ++ t) = split_inclusive (l ++ ['\n']) ++ split_inclusive t := by
  obtain ⟨ls, heq, hls⟩ := exists_lines l
  have hself := split_inclusive_terminated hls []
  rw [List.append_nil] at hself
  rw [heq, split_inclusive_terminated hls, hself]
  simp [split_inclusive]

/-- As many pieces as there are line feeds. -/
theorem length_split_inclusive (l : Text) :
    (split_inclusive (l ++ ['\n'])).length = l.count '\n' + 1 := by
  induction l with
  | nil => rfl
  | cons c l ih =>
    by_cases hc : c = '\n'
    · subst hc
      simp [split_inclusive, ih]
    · rw [List.cons_append, split_inclusive, if_neg hc, List.count_cons_of_ne hc, ← ih]
      split
      · next hnil =>
        rw [hnil, List.length_nil] at ih
        omega
      · next p ps hcons =>
        rw [hcons]
        rfl

/-- A text that ends in a line feed has no piece without one. -/
theorem mem_split_inclusive {l p : Text} (h : p ∈ split_inclusive (l ++ ['\n'])) : '\n' ∈ p := by
  obtain ⟨ls, heq, hls⟩ := exists_lines l
  rw [heq, ← List.append_nil (terminated ls), split_inclusive_terminated hls,
    List.mem_append] at h
  rcases h with h | h
  · obtain ⟨l, -, rfl⟩ := List.mem_map.mp h
    simp
  · cases h

end Ecode.Text
