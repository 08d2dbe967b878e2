-- Text that comes in fragments: the rows do not depend on where it was cut, unless characters
-- without cells stand before the cut on a row of their own.
import Ecode.LiveWrapRows
import Ecode.TextLines

namespace Ecode.live_wrap

open greedy

variable {char_width : Char → Option Nat} {str_width : Text → Nat} {w : Nat}

/-! ## Lines of a text -/

def first_line (t : Text) : Text := t.takeWhile (· != '\n')

def last_line (t : Text) : Text := t.rtakeWhile (· != '\n')

theorem first_line_append {l : Text} (hl : '\n' ∉ l) (rest : Text) :
    first_line (l ++ '\n' :: rest) = l := by
  have hall : ∀ c ∈ l, (c != '\n') = true := fun c hc => by
    simpa using ne_of_mem_of_not_mem hc hl
  unfold first_line
  rw [List.takeWhile_append_of_pos hall]
  simp

theorem first_line_of_not_mem {l : Text} (hl : '\n' ∉ l) : first_line l = l := by
  apply List.takeWhile_eq_self_iff.mpr
  intro c hc
  simpa using ne_of_mem_of_not_mem hc hl

theorem not_mem_last_line (t : Text) : '\n' ∉ last_line t := by
  intro h
  simpa using List.mem_rtakeWhile_imp h

/-- What is before the last line of a text ends with a line feed. -/
theorem exists_before_last_line (t : Text) :
    last_line t = t ∨ ∃ a, t = a ++ '\n' :: last_line t := by
  induction t using List.reverseRecOn with
  | nil => exact .inl rfl
  | append_singleton t c ih =>
    unfold last_line at ih ⊢
    by_cases hc : c = '\n'
    · subst hc
      right
      refine ⟨t, ?_⟩
      rw [List.rtakeWhile_concat_neg (fun c => c != '\n') t '\n' (by simp)]
    · rw [List.rtakeWhile_concat_pos (fun c => c != '\n') t c (by simpa using hc)]
      rcases ih with h | ⟨a, h⟩
      · left
        rw [h]
      · right
        refine ⟨a, ?_⟩
        conv_lhs => rw [h]
        simp

namespace RowBuilder

/-! ## One push -/

@[simp] theorem push_nil (s : RowBuilder) : s.push_fragment char_width str_width [] = s := rfl

theorem push_line {l : Text} (hl : '\n' ∉ l) (s : RowBuilder) (rest : Text) :
    s.push_fragment char_width str_width (l ++ '\n' :: rest) =
      ((s.push_str l).flush_current_line char_width str_width).push_fragment char_width str_width
        rest := by
  unfold push_fragment
  rw [Text.split_line hl]
  obtain ⟨p, ps, hps⟩ := List.exists_cons_of_ne_nil (Text.split_ne_nil '\n' rest)
  rw [hps]
  rfl

theorem push_last {l : Text} (hl : '\n' ∉ l) (hne : l ≠ []) (s : RowBuilder) :
    s.push_fragment char_width str_width l =
      (s.push_str l).wrap_current_line char_width str_width := by
  unfold push_fragment
  rw [Text.split_last hl]
  unfold push_pieces
  rw [if_neg hne]

/-- A text can be cut behind a line feed. -/
theorem push_break (s : RowBuilder) (a f : Text) :
    s.push_fragment char_width str_width (a ++ '\n' :: f) =
      (s.push_fragment char_width str_width (a ++ ['\n'])).push_fragment char_width str_width
        f := by
  induction a using Text.line_induction generalizing s with
  | last l hl => rw [push_line hl, push_line hl, push_nil]
  | line l rest hl ih =>
    rw [List.append_assoc, List.append_assoc, List.cons_append, List.cons_append, push_line hl,
      push_line hl, ih]

@[simp] theorem target_width_push (s : RowBuilder) (f : Text) :
    (s.push_fragment char_width str_width f).target_width = s.target_width := by
  induction f using Text.line_induction generalizing s with
  | last l hl =>
    by_cases hne : l = []
    · rw [hne, push_nil]
    · rw [push_last hl hne]
      rfl
  | line l rest hl ih =>
    rw [push_line hl, ih]
    rfl

/-- The rows are only added to. -/
theorem rows_push (s : RowBuilder) (f : Text) :
    s.rows <+: (s.push_fragment char_width str_width f).rows := by
  induction f using Text.line_induction generalizing s with
  | last l hl =>
    by_cases hne : l = []
    · rw [hne, push_nil]
    · rw [push_last hl hne]
      exact List.prefix_append _ _
  | line l rest hl ih =>
    rw [push_line hl]
    apply List.IsPrefix.trans _ (ih _)
    apply (List.prefix_append s.rows _).trans
    exact List.prefix_append _ _

theorem rows_display (s : RowBuilder) : s.rows <+: s.display_rows str_width := by
  unfold display_rows
  split_ifs
  · exact List.prefix_rfl
  · exact List.prefix_append _ _

/-! ## Nothing is lost -/

def text (s : RowBuilder) : Text := text_of s.rows ++ s.current_line

theorem text_wrap {s : RowBuilder} (hw : 0 < s.target_width) :
    (s.wrap_current_line char_width str_width).text = s.text := by
  unfold wrap_current_line text
  dsimp only
  rw [text_of_append, List.append_assoc, wrap_text hw]

theorem text_flush {s : RowBuilder} (hw : 0 < s.target_width) :
    (s.flush_current_line char_width str_width).text = s.text ++ ['\n'] := by
  have hwrap : (s.wrap_current_line char_width str_width).text = s.text := text_wrap hw
  rw [← hwrap]
  unfold flush_current_line text
  dsimp only
  rw [text_of_append, List.append_nil, List.append_assoc]
  simp [text_of, make_row]

theorem text_push_str (s : RowBuilder) (t : Text) : (s.push_str t).text = s.text ++ t :=
  (List.append_assoc _ _ _).symm

theorem text_push {s : RowBuilder} (hw : 0 < s.target_width) (f : Text) :
    (s.push_fragment char_width str_width f).text = s.text ++ f := by
  induction f using Text.line_induction generalizing s with
  | last l hl =>
    by_cases hne : l = []
    · rw [hne, push_nil, List.append_nil]
    · have hsame : 0 < (s.push_str l).target_width := hw
      rw [push_last hl hne, text_wrap hsame, text_push_str]
  | line l rest hl ih =>
    have hsame : 0 < (s.push_str l).target_width := hw
    have hflush : 0 < ((s.push_str l).flush_current_line char_width str_width).target_width := hw
    rw [push_line hl, ih hflush, text_flush hsame, text_push_str]
    simp

theorem text_display (s : RowBuilder) : text_of (s.display_rows str_width) = s.text := by
  unfold display_rows text
  split_ifs with h
  · rw [h, List.append_nil]
  · rw [text_of_append]
    simp [text_of, make_row]

theorem current_line_break (s : RowBuilder) (a : Text) :
    (s.push_fragment char_width str_width (a ++ ['\n'])).current_line = [] := by
  induction a using Text.line_induction generalizing s with
  | last l hl =>
    rw [push_line hl, push_nil]
    rfl
  | line l rest hl ih =>
    rw [List.append_assoc, List.cons_append, push_line hl, ih]

variable (char_width str_width) in
/-- A builder at the start of the last line of what was pushed. -/
theorem exists_line_start (w : Nat) (t : Text) :
    ∃ s : RowBuilder, s.target_width = max w 1 ∧ s.current_line = [] ∧
      ∀ f, (new w).push_fragment char_width str_width (t ++ f) =
        s.push_fragment char_width str_width (last_line t ++ f) := by
  rcases exists_before_last_line t with h | ⟨a, h⟩
  · exact ⟨new w, rfl, rfl, fun f => by rw [h]⟩
  · refine ⟨(new w).push_fragment char_width str_width (a ++ ['\n']), by simp [new],
      current_line_break _ a, ?_⟩
    intro f
    conv_lhs => rw [h]
    rw [List.append_assoc, List.cons_append, push_break]

/-! ## A text in two pushes -/

theorem push_last_line {s : RowBuilder} (hs : s.current_line = []) {l : Text} (hl : '\n' ∉ l) :
    s.push_fragment char_width str_width l =
      { s with
        rows := s.rows ++ (wrap char_width str_width s.target_width l).1
        current_line := (wrap char_width str_width s.target_width l).2 } := by
  by_cases hne : l = []
  · subst hne
    rw [push_nil, wrap_nil, List.append_nil, ← hs]
  · rw [push_last hl hne]
    unfold push_str wrap_current_line
    dsimp only
    rw [hs, List.nil_append]

variable (str_width) in
/-- Wrapping what was left of a line and goes on. -/
theorem wrap_in_two {s : RowBuilder} (hw : 0 < s.target_width) (hs : s.current_line = [])
    {l u : Text} (hl : '\n' ∉ l)
    (h : ¬ (Loose (cells char_width) s.target_width l ∧
      Fits (cells char_width) s.target_width u)) :
    ((s.push_fragment char_width str_width l).push_str u).wrap_current_line char_width
        str_width =
      (s.push_str (l ++ u)).wrap_current_line char_width str_width := by
  rw [push_last_line hs hl]
  unfold push_str wrap_current_line
  dsimp only
  rw [hs, List.nil_append, wrap_append hw h, List.append_assoc]

/-- One line in two fragments. -/
theorem push_in_two {s : RowBuilder} (hw : 0 < s.target_width) (hs : s.current_line = [])
    {l f : Text} (hl : '\n' ∉ l)
    (h : ¬ (Loose (cells char_width) s.target_width l ∧
      Fits (cells char_width) s.target_width (first_line f))) :
    (s.push_fragment char_width str_width l).push_fragment char_width str_width f =
      s.push_fragment char_width str_width (l ++ f) := by
  by_cases hmem : '\n' ∈ f
  · obtain ⟨u, rest, rfl, hu⟩ := List.eq_append_cons_of_mem hmem
    rw [first_line_append hu] at h
    have hboth : '\n' ∉ l ++ u := by simp [hl, hu]
    have hwrap := wrap_in_two str_width hw hs hl h
    rw [push_line hu, ← List.append_assoc, push_line hboth]
    unfold flush_current_line
    rw [hwrap]
  · rw [first_line_of_not_mem hmem] at h
    by_cases hne : f = []
    · rw [hne, push_nil, List.append_nil]
    · have hboth : '\n' ∉ l ++ f := by simp [hl, hmem]
      rw [push_last hmem hne, push_last hboth (by simp [hne])]
      exact wrap_in_two str_width hw hs hl h

/-- A text in two fragments is the text at once, unless characters without cells stand alone
before the cut and something that fits is behind it. -/
theorem push_append (w : Nat) {t f : Text}
    (h : ¬ (Loose (cells char_width) (max w 1) (last_line t) ∧
      Fits (cells char_width) (max w 1) (first_line f))) :
    ((new w).push_fragment char_width str_width t).push_fragment char_width str_width f =
      (new w).push_fragment char_width str_width (t ++ f) := by
  obtain ⟨s, hwidth, hs, hline⟩ :=
    exists_line_start char_width str_width w t
  have hleft := hline []
  rw [List.append_nil, List.append_nil] at hleft
  rw [hleft, hline f]
  rw [← hwidth] at h
  exact push_in_two (by omega) hs (not_mem_last_line t) h

/-! ## The cut that is seen -/

/-- Where the rows of a line go on, there is a row of two characters or more. -/
theorem exists_long_row {s : RowBuilder} (hw : 0 < s.target_width) (hs : s.current_line = [])
    {l u z : Text} {rows : List Row}
    (hwrapped : Wrapped char_width str_width s.target_width l rows z [])
    (hz : z ≠ []) (hu : Fits (cells char_width) s.target_width u) :
    ∃ p : Text, 1 < p.length ∧
      ((s.rows ++ rows ++ [make_row str_width p false] <+:
          ((s.push_str (l ++ u)).wrap_current_line char_width str_width).rows) ∨
        (((s.push_str (l ++ u)).wrap_current_line char_width str_width).rows = s.rows ++ rows ∧
          ((s.push_str (l ++ u)).wrap_current_line char_width str_width).current_line = p)) := by
  have hfits : Fits (cells char_width) s.target_width (z ++ u) := by
    have hweightless := hwrapped.weightless
    clear hwrapped hz
    induction z with
    | nil => exact hu
    | cons c z ih =>
      rw [List.forall_mem_cons] at hweightless
      exact fits_cons_of_weightless hweightless.1 (ih hweightless.2)
  obtain ⟨p, rest, hrow⟩ := exists_first_row hw hfits
  -- The row begins with a character without cells and has one with cells.
  have hlong : 1 < p.length := by
    obtain ⟨c, z, rfl⟩ := List.exists_cons_of_ne_nil hz
    have hzero := hwrapped.weightless c List.mem_cons_self
    rcases p with _ | ⟨d, _ | ⟨e, p⟩⟩
    · exact absurd rfl hrow.ne_nil
    · obtain ⟨rfl, -⟩ := List.cons.inj hrow.parts
      have hvisible := hrow.visible
      simp [hzero] at hvisible
    · simp
  have hwrap : (s.push_str (l ++ u)).wrap_current_line char_width str_width =
      { s with
        rows := s.rows ++ (rows ++ (wrap char_width str_width s.target_width (z ++ u)).1)
        current_line := (wrap char_width str_width s.target_width (z ++ u)).2 } := by
    unfold push_str wrap_current_line
    dsimp only
    rw [hs, List.nil_append, hwrapped.goes_on u, List.append_nil]
  rw [hwrap, wrap_of_first hw hfits hrow]
  by_cases hrest : rest = []
  · refine ⟨p, hlong, .inr ?_⟩
    have hparts := hrow.parts
    rw [hrest, List.append_nil, List.nil_append] at hparts
    rw [if_pos hrest]
    exact ⟨by simp, hparts⟩
  · refine ⟨p, hlong, .inl ?_⟩
    rw [if_neg hrest]
    simp

/-- The longer row is displayed, whether the line ends behind it or not. -/
theorem exists_displayed {s : RowBuilder} {l g p : Text} {before : List Row}
    (hl : '\n' ∉ l) (hne : l ≠ []) (hp : 1 < p.length)
    (h : before ++ [make_row str_width p false] <+:
        ((s.push_str (l ++ first_line g)).wrap_current_line char_width str_width).rows ∨
      (((s.push_str (l ++ first_line g)).wrap_current_line char_width str_width).rows = before ∧
        ((s.push_str (l ++ first_line g)).wrap_current_line char_width str_width).current_line =
          p)) :
    ∃ long : Row, 1 < long.text.length ∧
      before ++ [long] <+:
        (s.push_fragment char_width str_width (l ++ g)).display_rows str_width := by
  by_cases hmem : '\n' ∈ g
  · obtain ⟨u, rest, rfl, hu⟩ := List.eq_append_cons_of_mem hmem
    have hboth : '\n' ∉ l ++ u := by simp [hl, hu]
    rw [first_line_append hu] at h
    rw [← List.append_assoc, push_line hboth]
    -- What follows the line feed leaves the rows.
    have hstays : ∀ long : Row, before ++ [long] <+:
          ((s.push_str (l ++ u)).flush_current_line char_width str_width).rows →
        before ++ [long] <+: (((s.push_str (l ++ u)).flush_current_line char_width
          str_width).push_fragment char_width str_width rest).display_rows str_width := by
      intro long hlong
      exact (hlong.trans (rows_push _ rest)).trans (rows_display _)
    rcases h with hrows | ⟨hrows, hleft⟩
    · refine ⟨make_row str_width p false, hp, hstays _ ?_⟩
      exact hrows.trans (List.prefix_append _ _)
    · refine ⟨make_row str_width p true, hp, hstays _ ?_⟩
      unfold flush_current_line
      dsimp only
      rw [hrows, hleft]
  · rw [first_line_of_not_mem hmem] at h
    have hboth : '\n' ∉ l ++ g := by simp [hl, hmem]
    rw [push_last hboth (by simp [hne])]
    refine ⟨make_row str_width p false, hp, ?_⟩
    rcases h with hrows | ⟨hrows, hleft⟩
    · exact hrows.trans (rows_display _)
    · have hsome : p ≠ [] := by
        rintro rfl
        simp at hp
      unfold display_rows
      rw [hrows, hleft, if_neg hsome]

variable (char_width str_width) in
/-- The text at once has a longer row where the fragments have a character alone. -/
theorem exists_cut_rows (w : Nat) {t g : Text}
    (hloose : Loose (cells char_width) (max w 1) (last_line t))
    (hfits : Fits (cells char_width) (max w 1) (first_line g)) :
    ∃ (before : List Row) (alone long : Row), alone.text.length = 1 ∧ 1 < long.text.length ∧
      before ++ [alone] <+: ((new w).push_fragment char_width str_width t).rows ∧
      before ++ [long] <+:
        ((new w).push_fragment char_width str_width (t ++ g)).display_rows str_width := by
  obtain ⟨s, hwidth, hs, hline⟩ :=
    exists_line_start char_width str_width w t
  have hw : 0 < s.target_width := by omega
  rw [← hwidth] at hloose hfits
  have hl := not_mem_last_line t
  obtain ⟨rows, z, left, hwrapped⟩ := exists_wrapped str_width hw (last_line t)
  have hz := hwrapped.loose.mp hloose
  obtain rfl : left = [] := hwrapped.either.resolve_left hz
  have hne : last_line t ≠ [] := by
    intro hnil
    rw [hnil] at hloose
    cases hloose
  obtain ⟨p, hlong, hrows⟩ := exists_long_row hw hs hwrapped hz hfits
  obtain ⟨long, hlength, hdisplay⟩ := exists_displayed hl hne hlong hrows
  obtain ⟨c, z, rfl⟩ := List.exists_cons_of_ne_nil hz
  have hleft := hline []
  rw [List.append_nil, List.append_nil] at hleft
  refine ⟨s.rows ++ rows, make_row str_width [c] false, long, rfl, hlength, ?_, ?_⟩
  · rw [hleft, push_last_line hs hl, hwrapped.whole]
    simp [singles]
  · rw [hline g]
    exact hdisplay

end RowBuilder

end Ecode.live_wrap
