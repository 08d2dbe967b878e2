-- Runs of a row builder: fragments and changes of the width in any order, against the text
-- pushed at once.
import Ecode.LiveWrapFragments

namespace Ecode.live_wrap

open greedy

variable {char_width : Char → Option Nat} {str_width : Text → Nat} {w : Nat}

namespace RowBuilder

/-! ## Fragments -/

def push_fragments (char_width : Char → Option Nat) (str_width : Text → Nat) (s : RowBuilder)
    (fragments : List Text) : RowBuilder :=
  fragments.foldl (fun s fragment => s.push_fragment char_width str_width fragment) s

/-- No fragment that fits comes behind characters without cells at the start of a row. -/
def Seamless (char_width : Char → Option Nat) (w : Nat) (fragments : List Text) : Prop :=
  ∀ before f after, fragments = before ++ f :: after →
    ¬ (Loose (cells char_width) w (last_line before.flatten) ∧
      Fits (cells char_width) w (first_line f))

variable (char_width str_width) in
theorem push_fragments_append (s : RowBuilder) (a b : List Text) :
    s.push_fragments char_width str_width (a ++ b) =
      (s.push_fragments char_width str_width a).push_fragments char_width str_width b :=
  List.foldl_append

variable (char_width str_width) in
theorem target_width_push_fragments (s : RowBuilder) (fragments : List Text) :
    (s.push_fragments char_width str_width fragments).target_width = s.target_width := by
  induction fragments using List.reverseRecOn with
  | nil => rfl
  | append_singleton fragments f ih =>
    rw [push_fragments_append char_width str_width]
    exact (target_width_push _ f).trans ih

variable (char_width str_width) in
theorem text_push_fragments {s : RowBuilder} (hw : 0 < s.target_width) (fragments : List Text) :
    (s.push_fragments char_width str_width fragments).text = s.text ++ fragments.flatten := by
  induction fragments using List.reverseRecOn with
  | nil => exact (List.append_nil _).symm
  | append_singleton fragments f ih =>
    have hsame := target_width_push_fragments char_width str_width s fragments
    rw [push_fragments_append char_width str_width]
    exact (text_push (hsame.symm ▸ hw) f).trans (by simp [ih])

theorem rows_push_fragments (s : RowBuilder) (fragments : List Text) :
    s.rows <+: (s.push_fragments char_width str_width fragments).rows := by
  induction fragments using List.reverseRecOn with
  | nil => exact List.prefix_rfl
  | append_singleton fragments f ih =>
    rw [push_fragments_append char_width str_width]
    exact ih.trans (rows_push _ f)

variable (str_width) in
/-- Fragments without a seam make the builder that the text at once makes. -/
theorem push_fragments_seamless {fragments : List Text}
    (h : Seamless char_width (max w 1) fragments) :
    (new w).push_fragments char_width str_width fragments =
      (new w).push_fragment char_width str_width fragments.flatten := by
  induction fragments using List.reverseRecOn with
  | nil => rfl
  | append_singleton fragments f ih =>
    have hbefore : Seamless char_width (max w 1) fragments := by
      intro before g after hsplit
      exact h before g (after ++ [f]) (by simp [hsplit])
    have hlast := h fragments f [] rfl
    rw [push_fragments_append, ih hbefore]
    calc ((new w).push_fragment char_width str_width fragments.flatten).push_fragments char_width
          str_width [f]
        = (new w).push_fragment char_width str_width (fragments.flatten ++ f) :=
          push_append w hlast
      _ = (new w).push_fragment char_width str_width (fragments ++ [f]).flatten := by simp

theorem first_line_prefix (f rest : Text) : first_line f <+: first_line (f ++ rest) := by
  unfold first_line
  rw [List.takeWhile_append]
  split_ifs with hall
  · rw [List.takeWhile_prefix _ |>.eq_of_length hall]
    exact List.prefix_append _ _
  · exact List.prefix_rfl

/-- The first seam is seen: the fragments have a character alone where the text has more. -/
theorem seamless_of_display {fragments : List Text}
    (h : ((new w).push_fragments char_width str_width fragments).display_rows str_width =
      ((new w).push_fragment char_width str_width fragments.flatten).display_rows str_width) :
    Seamless char_width (max w 1) fragments := by
  intro before f after hsplit
  -- Up to the first seam the builder is that of the text.
  induction hn : before.length using Nat.strong_induction_on generalizing before f after with
  | _ n ih =>
    rintro ⟨hloose, hfits⟩
    have hbefore : Seamless char_width (max w 1) before := by
      intro a g b hab
      exact ih a.length (by simp [← hn, hab]) a g (b ++ f :: after) (by simp [hsplit, hab]) rfl
    have hgoes : Fits (cells char_width) (max w 1) (first_line (f ++ after.flatten)) := by
      obtain ⟨more, hmore⟩ := first_line_prefix f after.flatten
      rw [← hmore]
      exact fits_append hfits more
    obtain ⟨rows, alone, long, halone, hlong, hleft, hright⟩ :=
      exists_cut_rows char_width str_width w hloose hgoes
    have hfragments : rows ++ [alone] <+:
        ((new w).push_fragments char_width str_width fragments).display_rows str_width := by
      rw [hsplit, push_fragments_append, push_fragments_seamless str_width hbefore]
      exact (hleft.trans (rows_push_fragments _ _)).trans (rows_display _)
    have hwhole : rows ++ [long] <+:
        ((new w).push_fragments char_width str_width fragments).display_rows str_width := by
      rw [h, hsplit]
      simpa using hright
    have hsame := List.IsPrefix.eq_of_length (List.prefix_of_prefix_length_le hfragments hwhole
      (by simp)) (by simp)
    have hrow : alone = long := by simpa using hsame
    rw [hrow] at halone
    omega

/-! ## The rows on display -/

/-- The texts of two characters or more on display are those that the lines show. -/
theorem mem_display_iff {s : RowBuilder} (hw : 0 < s.target_width) (hs : s.current_line = [])
    {p : Text} (hp : 1 < p.length) (t : Text) :
    p ∈ ((s.push_fragment char_width str_width t).display_rows str_width).map Row.text ↔
      p ∈ s.rows.map Row.text ∨
        ∃ line ∈ Text.split '\n' t, p ∈ shown char_width str_width s.target_width line := by
  have hne : p ≠ [] := by
    rintro rfl
    simp at hp
  induction t using Text.line_induction generalizing s with
  | last l hl =>
    rw [push_last_line hs hl, Text.split_last hl]
    unfold display_rows shown
    dsimp only
    split_ifs with hleft
    · simp [hleft, hne]
    · simp [make_row]
  | line l rest hl ih =>
    have hflush : ((s.push_str l).flush_current_line char_width str_width).rows.map Row.text =
        s.rows.map Row.text ++ shown char_width str_width s.target_width l := by
      unfold flush_current_line wrap_current_line push_str shown
      dsimp only
      rw [hs, List.nil_append]
      simp [make_row]
    have hrest := ih (s := (s.push_str l).flush_current_line char_width str_width) hw rfl
    rw [hflush, List.mem_append, or_assoc] at hrest
    rw [push_line hl, Text.split_line hl, List.exists_mem_cons_iff]
    exact hrest

/-- Every row has the width of its text. -/
def Measured (str_width : Text → Nat) (rows : List Row) : Prop :=
  ∀ row ∈ rows, row.width = str_width row.text

theorem measured_wrap (hw : 0 < w) (line : Text) :
    Measured str_width (wrap char_width str_width w line).1 := by
  induction line using wrap_induction char_width hw with
  | nil => simp [Measured]
  | single ch t hfits ih =>
    rw [wrap_of_not_fits hw hfits]
    exact List.forall_mem_cons.mpr ⟨rfl, ih⟩
  | last line hfits hrow =>
    rw [wrap_of_first hw hfits hrow, if_pos rfl]
    simp [Measured]
  | row p s hfits hrow hs ih =>
    rw [wrap_of_first hw hfits hrow, if_neg hs]
    exact List.forall_mem_cons.mpr ⟨rfl, ih⟩

theorem Measured.append {a b : List Row} (ha : Measured str_width a)
    (hb : Measured str_width b) : Measured str_width (a ++ b) :=
  List.forall_mem_append.mpr ⟨ha, hb⟩

theorem measured_make (t : Text) (explicit_break : Bool) :
    Measured str_width [make_row str_width t explicit_break] := by
  simp [Measured, make_row]

theorem measured_push {s : RowBuilder} (hw : 0 < s.target_width) (hs : Measured str_width s.rows)
    (f : Text) : Measured str_width (s.push_fragment char_width str_width f).rows := by
  induction f using Text.line_induction generalizing s with
  | last l hl =>
    by_cases hne : l = []
    · rwa [hne, push_nil]
    · rw [push_last hl hne]
      exact hs.append (measured_wrap hw _)
  | line l rest hl ih =>
    rw [push_line hl]
    apply ih (s := (s.push_str l).flush_current_line char_width str_width) hw
    exact (hs.append (measured_wrap hw _)).append (measured_make _ _)

theorem measured_display {s : RowBuilder} (hs : Measured str_width s.rows) :
    Measured str_width (s.display_rows str_width) := by
  unfold display_rows
  split_ifs
  · exact hs
  · exact hs.append (measured_make _ _)

/-- Every row that the characters fill has at most the target width as a text, or it is one
character. -/
def Narrow (char_width : Char → Option Nat) (str_width : Text → Nat) (w : Nat) (t : Text) :
    Prop :=
  ∀ line ∈ Text.split '\n' t, ∀ u p v, FillsRow (cells char_width) w line p u v →
    1 < p.length → str_width p ≤ w

variable (char_width) in
theorem narrow_iff (hempty : str_width [] = 0) (w : Nat) (t : Text) :
    (∀ row ∈ ((new w).push_fragment char_width str_width t).display_rows str_width,
        row.width ≤ max w 1 ∨ row.text.length = 1) ↔
      Narrow char_width str_width (max w 1) t := by
  have hw : 0 < (new w).target_width := by simp [new]
  have hpush : Measured str_width ((new w).push_fragment char_width str_width t).rows :=
    measured_push hw (by simp [Measured, new]) t
  have hmeasured := measured_display hpush
  have hmem : ∀ p, 1 < p.length →
      (p ∈ (((new w).push_fragment char_width str_width t).display_rows str_width).map Row.text ↔
        ∃ line ∈ Text.split '\n' t, ∃ u v, FillsRow (cells char_width) (max w 1) line p u v) := by
    intro p hp
    rw [mem_display_iff hw rfl hp]
    simp [new, mem_shown_iff char_width str_width (show 0 < max w 1 by omega) hp]
  constructor
  · intro h line hline u p v hrow hp
    obtain ⟨row, hrowmem, rfl⟩ := List.mem_map.mp ((hmem p hp).mpr ⟨line, hline, u, v, hrow⟩)
    rcases h row hrowmem with hle | hone
    · rwa [hmeasured row hrowmem] at hle
    · omega
  · intro h row hrow
    rw [hmeasured row hrow]
    by_cases hlong : 1 < row.text.length
    · left
      obtain ⟨line, hline, u, v, hfills⟩ :=
        (hmem row.text hlong).mp (List.mem_map_of_mem hrow)
      exact h line hline u row.text v hfills hlong
    · by_cases hone : row.text.length = 1
      · exact .inr hone
      · left
        have hnil : row.text = [] := List.length_eq_zero_iff.mp (by omega)
        rw [hnil, hempty]
        exact Nat.zero_le _

/-! ## Runs -/

inductive Op where
  | push_fragment (fragment : Text)
  | set_width (width : Nat)
  deriving DecidableEq

def apply (char_width : Char → Option Nat) (str_width : Text → Nat) (s : RowBuilder) :
    Op → RowBuilder
  | .push_fragment fragment => s.push_fragment char_width str_width fragment
  | .set_width width => s.set_width char_width str_width width

def run (char_width : Char → Option Nat) (str_width : Text → Nat) (w : Nat) (ops : List Op) :
    RowBuilder :=
  ops.foldl (apply char_width str_width) (new w)

def Op.pushed : Op → Text
  | .push_fragment fragment => fragment
  | .set_width _ => []

/-- The width and the fragments that the rows are made from: a change of the width pushes what
there is as one fragment. -/
def since (made : Nat × List Text) : Op → Nat × List Text
  | .push_fragment fragment => (made.1, made.2 ++ [fragment])
  | .set_width width => (width, [made.2.flatten])

def made_from (w : Nat) (ops : List Op) : Nat × List Text := ops.foldl since (w, [])

theorem flatten_made_from (w : Nat) (ops : List Op) :
    (made_from w ops).2.flatten = ops.flatMap Op.pushed := by
  unfold made_from
  induction ops using List.reverseRecOn with
  | nil => rfl
  | append_singleton ops op ih =>
    rw [List.foldl_append, List.flatMap_append, ← ih]
    cases op <;> simp [since, Op.pushed]

variable (char_width str_width) in
/-- A run is the fragments that its rows are made from. -/
theorem run_eq_fragments (w : Nat) (ops : List Op) :
    run char_width str_width w ops =
      (new (made_from w ops).1).push_fragments char_width str_width (made_from w ops).2 := by
  unfold run made_from
  induction ops using List.reverseRecOn with
  | nil => rfl
  | append_singleton ops op ih =>
    rw [List.foldl_append, List.foldl_append, ih]
    generalize List.foldl since (w, []) ops = made
    cases op with
    | push_fragment f =>
      have happend := push_fragments_append char_width str_width (new made.1) made.2 [f]
      exact happend.symm
    | set_width width =>
      have hnew : 0 < (new made.1).target_width := by simp [new]
      have htext := text_push_fragments char_width str_width hnew made.2
      change (new width).push_fragment char_width str_width _ = _
      unfold text at htext
      rw [htext]
      rfl

/-- Nothing is lost in any run. -/
theorem text_run (w : Nat) (ops : List Op) :
    text_of ((run char_width str_width w ops).display_rows str_width) =
      ops.flatMap Op.pushed := by
  have hnew : 0 < (new (made_from w ops).1).target_width := by simp [new]
  rw [text_display, run_eq_fragments, text_push_fragments char_width str_width hnew,
    flatten_made_from]
  rfl

/-- The rows on display after a run are those of the text pushed at once, they are the text, and
none is too wide. -/
structure Faithful (char_width : Char → Option Nat) (str_width : Text → Nat) (w : Nat)
    (ops : List Op) : Prop where
  at_once : (run char_width str_width w ops).display_rows str_width =
    ((new (run char_width str_width w ops).target_width).push_fragment char_width str_width
      (ops.flatMap Op.pushed)).display_rows str_width
  lossless : text_of ((run char_width str_width w ops).display_rows str_width) =
    ops.flatMap Op.pushed
  narrow : ∀ row ∈ (run char_width str_width w ops).display_rows str_width,
    row.width ≤ (run char_width str_width w ops).target_width ∨ row.text.length = 1

/-- Live wrapping keeps the text, and it is that of the text at once just when no fragment that
fits comes behind characters without cells at the start of a row and the rows as texts are no
wider than their characters are allowed to be. -/
theorem live_wrapping_faithful_iff (char_width : Char → Option Nat) (str_width : Text → Nat)
    (hempty : str_width [] = 0) (w : Nat) (ops : List Op) :
    Faithful char_width str_width w ops ↔
      Seamless char_width (max (made_from w ops).1 1) (made_from w ops).2 ∧
        Narrow char_width str_width (max (made_from w ops).1 1) (ops.flatMap Op.pushed) := by
  have hwidth : (run char_width str_width w ops).target_width = max (made_from w ops).1 1 := by
    rw [run_eq_fragments, target_width_push_fragments]
    rfl
  have hnew : new (max (made_from w ops).1 1) = new (made_from w ops).1 := by simp [new]
  have hrun := run_eq_fragments char_width str_width w ops
  have hnarrow := narrow_iff char_width hempty (made_from w ops).1
    (ops.flatMap Op.pushed)
  rw [← flatten_made_from w ops] at hnarrow ⊢
  constructor
  · rintro ⟨hat_once, -, hrows⟩
    rw [hwidth, hnew, ← flatten_made_from w ops] at hat_once
    rw [hwidth, hat_once] at hrows
    rw [hrun] at hat_once
    exact ⟨seamless_of_display hat_once, hnarrow.mp hrows⟩
  · rintro ⟨hseamless, hrows⟩
    have hat_once := push_fragments_seamless str_width hseamless
    rw [← hrun] at hat_once
    refine ⟨?_, text_run w ops, ?_⟩
    · rw [hwidth, hnew, ← flatten_made_from w ops, hat_once]
    · rw [hwidth, hat_once]
      exact hnarrow.mpr hrows

/-- The width of characters when the combining acute accent is the only one without cells. -/
def accent_width (ch : Char) : Option Nat := if ch = '\u0301' then some 0 else some 1

def accents_width (t : Text) : Nat := (t.map (cells accent_width)).sum

/-- Pushed before the letter behind it, an accent is a row of its own. -/
theorem accent_stands_alone :
    ¬ Faithful accent_width accents_width 10
      [.push_fragment ['\u0301'], .push_fragment ['a']] := by
  intro h
  have hat_once := h.at_once
  revert hat_once
  decide

theorem letters_are_seamless :
    Seamless accent_width 2 ["abcd".toList, "e\nf".toList] ∧
      Narrow accent_width accents_width 2 "abcde\nf".toList :=
  (live_wrapping_faithful_iff accent_width accents_width rfl 3
    [.push_fragment "abcd".toList, .set_width 2, .push_fragment "e\nf".toList]).mp
      ⟨by decide, by decide, by decide⟩

end RowBuilder

end Ecode.live_wrap
