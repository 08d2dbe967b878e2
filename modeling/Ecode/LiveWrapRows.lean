-- The rows of one line: what a cut takes, and the line cut row after row.
import Ecode.LiveWrap

namespace Ecode.live_wrap

open greedy

variable {char_width : Char → Option Nat} {str_width : Text → Nat} {w : Nat}

/-! ## One cut -/

/-- What a cut that starts behind `cols` cells takes of the line. -/
structure Taken (char_width : Char → Option Nat) (m cols : Nat) (line p s : Text) (n : Nat) :
    Prop where
  parts : line = p ++ s
  inside : ∀ q c q', p = q ++ c :: q' →
    ¬ Starts (cells char_width) m (reads (cells char_width) m (some cols) q) c
  ends : ∀ c ∈ s.head?, Starts (cells char_width) m (reads (cells char_width) m (some cols) p) c
  sum : n = cols + (p.map (cells char_width)).sum

theorem take_from_spec {m cols : Nat} (hcols : cols < m) (line : Text) :
    Taken char_width m cols line (take_from char_width m cols line).1
      (take_from char_width m cols line).2.1 (take_from char_width m cols line).2.2 := by
  induction line generalizing cols with
  | nil => exact ⟨rfl, by simp [take_from], by simp [take_from], by simp [take_from]⟩
  | cons ch t ih =>
    unfold take_from
    split_ifs with hwide hfull
    · refine ⟨rfl, by simp, ?_, by simp⟩
      intro c hc n hn
      cases hc
      cases hn
      exact hwide
    · refine ⟨rfl, ?_, ?_, by simp [hfull]⟩
      · intro q c q' hq hstarts
        rcases q with _ | ⟨d, q⟩
        · obtain ⟨rfl, -⟩ := List.cons.inj hq
          have hlt := hstarts cols rfl
          omega
        · simp at hq
      · intro c _ n hn
        rw [reads_cons, next_fills hfull] at hn
        cases hn
    · have hnext : next (cells char_width) m (some cols) ch = some (cols + cells char_width ch) :=
        next_fits (by omega)
      obtain ⟨hparts, hinside, hends, hsum⟩ := 
        ih (show cols + cells char_width ch < m by omega)
      refine ⟨congrArg (ch :: ·) hparts, ?_, ?_, by simp [hsum, Nat.add_assoc]⟩
      · intro q c q' hq hstarts
        rcases q with _ | ⟨d, q⟩
        · obtain ⟨rfl, -⟩ := List.cons.inj hq
          have hlt := hstarts cols rfl
          omega
        · obtain ⟨rfl, hrest⟩ := List.cons.inj hq
          rw [reads_cons, hnext] at hstarts
          exact hinside q c q' hrest hstarts
      · intro c hc
        rw [reads_cons, hnext]
        exact hends c hc

variable (char_width) in
theorem take_prefix_spec (hw : 0 < w) (ch : Char) (t : Text) :
    Taken char_width w 0 (ch :: t) (take_prefix_by_width char_width (ch :: t) w).1
      (take_prefix_by_width char_width (ch :: t) w).2.1
      (take_prefix_by_width char_width (ch :: t) w).2.2 := by
  unfold take_prefix_by_width
  rw [if_neg (by simp; omega)]
  exact take_from_spec hw (ch :: t)

namespace Taken

variable {line p s : Text} {n : Nat}

theorem visible (h : Taken char_width w 0 line p s n) (hn : n ≠ 0) :
    ∃ c ∈ p, 0 < cells char_width c := by
  by_contra hnone
  push Not at hnone
  apply hn
  have hsum : (p.map (cells char_width)).sum = 0 := by
    apply List.sum_eq_zero
    intro k hk
    obtain ⟨c, hc, rfl⟩ := List.mem_map.mp hk
    exact Nat.le_zero.mp (hnone c hc)
  rw [h.sum, hsum]

theorem weightless (h : Taken char_width w 0 line p s 0) : ∀ c ∈ p, cells char_width c = 0 := by
  intro c hc
  have hle : cells char_width c ≤ (p.map (cells char_width)).sum :=
    List.single_le_sum (by simp) _ (List.mem_map_of_mem hc)
  have hsum := h.sum
  omega

/-- What takes cells is a row. -/
theorem fills_row (h : Taken char_width w 0 line p s n) (hn : n ≠ 0) :
    FillsRow (cells char_width) w line p [] s := by
  have hvisible := h.visible hn
  have hne : p ≠ [] := by
    rintro rfl
    simp at hvisible
  refine ⟨h.parts, ?_, ?_, ?_, hvisible⟩
  · intro c _ n hn
    cases hn
  · intro q c q' hq hq'
    rw [List.nil_append, ← reads_zero hq']
    exact h.inside q c q' hq
  · rw [List.nil_append, ← reads_zero hne]
    exact h.ends

/-- A cut takes cells when an item fits. -/
theorem fits_iff (hw : 0 < w) (h : Taken char_width w 0 line p s n) :
    Fits (cells char_width) w line ↔ n ≠ 0 := by
  constructor
  · rintro ⟨y, v, u, hline, hy, hv, hle⟩ rfl
    have hp := h.weightless
    have hparts : p ++ s = y ++ v :: u := h.parts.symm.trans hline
    -- The cut goes on over items without cells, and over the one that fits.
    have hgoes : ∀ c ∈ s.head?, w < cells char_width c := by
      intro c hc
      have hstarts := h.ends c hc 0 (reads_weightless hp hw)
      omega
    rcases List.append_eq_append_iff.mp hparts with ⟨x, hx, hs⟩ | ⟨x, hx, hs⟩
    · rcases x with _ | ⟨c, x⟩
      · have hlt := hgoes v (by simp [hs])
        omega
      · have hlt := hgoes c (by simp [hs])
        have hzero := hy c (by simp [hx])
        omega
    · rcases x with _ | ⟨c, x⟩
      · obtain rfl : v :: u = s := hs
        have hlt := hgoes v rfl
        omega
      · obtain ⟨rfl, -⟩ := List.cons.inj hs
        have hzero := hp v (by simp [hx])
        omega
  · intro hn
    rcases (h.fills_row hn).fits_or_wide hw with hfits | ⟨c, rfl, hwide⟩
    · exact hfits
    · refine absurd ?_ (h.inside [] c [] rfl)
      intro k hk
      omega

end Taken

/-- A line in which an item fits has a first row. -/
theorem exists_first_row (hw : 0 < w) {line : Text} (h : Fits (cells char_width) w line) :
    ∃ p s, FillsRow (cells char_width) w line p [] s := by
  rcases line with _ | ⟨ch, t⟩
  · obtain ⟨y, v, u, hline, -⟩ := h
    simp at hline
  · have htaken := take_prefix_spec char_width hw ch t
    exact ⟨_, _, htaken.fills_row ((htaken.fits_iff hw).mp h)⟩

/-! ## The loop -/

/-- What the loop does with a line, when it has the turns for it. -/
theorem wrap_loop_fuel (hw : 0 < w) {fuel : Nat} {line : Text} (h : line.length ≤ fuel) :
    wrap_loop char_width str_width w fuel line = wrap char_width str_width w line := by
  unfold wrap
  generalize hlen : line.length = n at h
  induction n using Nat.strong_induction_on generalizing fuel line with
  | _ n ih =>
    rcases line with _ | ⟨ch, t⟩
    · subst hlen
      cases fuel <;> rfl
    · obtain ⟨fuel, rfl⟩ : ∃ m, fuel = m + 1 := ⟨fuel - 1, by simp at hlen; omega⟩
      subst hlen
      have htaken := take_prefix_spec char_width hw ch t
      rw [List.length_cons] at h ⊢
      unfold wrap_loop
      dsimp only
      by_cases hzero : (take_prefix_by_width char_width (ch :: t) w).2.2 = 0
      · rw [if_pos hzero, if_pos hzero,
          ih t.length (by simp) rfl (show t.length ≤ fuel by omega)]
      · rw [if_neg hzero, if_neg hzero]
        -- What the row leaves is shorter than the line.
        have hrow := htaken.fills_row hzero
        have hlt : (take_prefix_by_width char_width (ch :: t) w).2.1.length ≤ t.length := by
          have hparts := congrArg List.length hrow.parts
          have hpos := List.length_pos_iff.mpr hrow.ne_nil
          simp only [List.length_cons, List.nil_append, List.length_append] at hparts
          omega
        split_ifs
        · rfl
        · rw [ih _ (by simp; omega) rfl (hlt.trans (by omega)),
            ih _ (by simp; omega) rfl hlt]

@[simp] theorem wrap_nil : wrap char_width str_width w [] = ([], []) := rfl

/-- When nothing fits, the first character is a row. -/
theorem wrap_of_not_fits (hw : 0 < w) {ch : Char} {t : Text}
    (h : ¬ Fits (cells char_width) w (ch :: t)) :
    wrap char_width str_width w (ch :: t) =
      (make_row str_width [ch] false :: (wrap char_width str_width w t).1,
        (wrap char_width str_width w t).2) := by
  have htaken := take_prefix_spec char_width hw ch t
  have hzero : (take_prefix_by_width char_width (ch :: t) w).2.2 = 0 := by
    by_contra hne
    exact h ((htaken.fits_iff hw).mpr hne)
  conv_lhs => unfold wrap
  rw [List.length_cons]
  unfold wrap_loop
  dsimp only
  rw [if_pos hzero]
  rfl

/-- The first row is pushed when something is behind it. -/
theorem wrap_of_first (hw : 0 < w) {line p s : Text} (hfits : Fits (cells char_width) w line)
    (h : FillsRow (cells char_width) w line p [] s) :
    wrap char_width str_width w line =
      if s = [] then ([], line)
      else (make_row str_width p false :: (wrap char_width str_width w s).1,
        (wrap char_width str_width w s).2) := by
  rcases line with _ | ⟨ch, t⟩
  · have hparts := h.parts
    have hne := h.ne_nil
    simp [hne] at hparts
  · have htaken := take_prefix_spec char_width hw ch t
    have hpos := (htaken.fits_iff hw).mp hfits
    obtain ⟨hp, hs⟩ := FillsRow.first_unique h (htaken.fills_row hpos)
    have hlt : s.length ≤ t.length := by
      have hparts := congrArg List.length h.parts
      have hlen := List.length_pos_iff.mpr h.ne_nil
      simp only [List.length_cons, List.nil_append, List.length_append] at hparts
      omega
    conv_lhs => unfold wrap
    rw [List.length_cons]
    unfold wrap_loop
    dsimp only
    rw [if_neg hpos, hp, hs, wrap_loop_fuel hw hlt]

variable (char_width) in
/-- Induction along the rows of a line. -/
theorem wrap_induction (hw : 0 < w) {motive : Text → Prop} (nil : motive [])
    (single : ∀ ch t, ¬ Fits (cells char_width) w (ch :: t) → motive t → motive (ch :: t))
    (last : ∀ line, Fits (cells char_width) w line →
      FillsRow (cells char_width) w line line [] [] → motive line)
    (row : ∀ p s, Fits (cells char_width) w (p ++ s) →
      FillsRow (cells char_width) w (p ++ s) p [] s → s ≠ [] → motive s → motive (p ++ s))
    (line : Text) : motive line := by
  generalize hlen : line.length = n
  induction n using Nat.strong_induction_on generalizing line with
  | _ n ih =>
    subst hlen
    rcases line with _ | ⟨ch, t⟩
    · exact nil
    · by_cases hfits : Fits (cells char_width) w (ch :: t)
      · obtain ⟨p, s, hrow⟩ := exists_first_row hw hfits
        have hparts : ch :: t = p ++ s := hrow.parts
        have hlt : s.length < (ch :: t).length := by
          have hpos := List.length_pos_iff.mpr hrow.ne_nil
          rw [hparts, List.length_append]
          omega
        rw [hparts] at hfits hrow ⊢
        by_cases hs : s = []
        · subst hs
          rw [List.append_nil] at hfits hrow ⊢
          exact last p hfits hrow
        · exact row p s hfits hrow hs (ih s.length hlt s rfl)
      · exact single ch t hfits (ih t.length (by simp) t rfl)

/-! ## A line that goes on -/

/-- Characters that stand alone on their rows. -/
def singles (str_width : Text → Nat) (z : Text) : List Row :=
  z.map fun ch => make_row str_width [ch] false

theorem not_fits_weightless {z u : Text} (hz : ∀ c ∈ z, cells char_width c = 0)
    (hu : ¬ Fits (cells char_width) w u) : ¬ Fits (cells char_width) w (z ++ u) := by
  induction z with
  | nil => exact hu
  | cons c z ih =>
    rw [List.forall_mem_cons] at hz
    intro h
    exact ih hz.2 (fits_of_cons hz.1 h)

variable (str_width) in
/-- Characters without cells that nothing fits behind stand alone. -/
theorem wrap_weightless (hw : 0 < w) {z u : Text} (hz : ∀ c ∈ z, cells char_width c = 0)
    (hu : ¬ Fits (cells char_width) w u) :
    wrap char_width str_width w (z ++ u) =
      (singles str_width z ++ (wrap char_width str_width w u).1,
        (wrap char_width str_width w u).2) := by
  induction z with
  | nil => rfl
  | cons c z ih =>
    have hnot := not_fits_weightless hz hu
    rw [List.forall_mem_cons] at hz
    rw [List.cons_append] at hnot ⊢
    rw [wrap_of_not_fits hw hnot, ih hz.2]
    rfl

theorem not_fits_nil : ¬ Fits (cells char_width) w [] := by
  rintro ⟨y, v, u, h, -⟩
  simp at h

/-- The rows of a line that can still go on: those that stay, the characters without cells that
were taken for rows of their own, and what is left of the line. -/
structure Wrapped (char_width : Char → Option Nat) (str_width : Text → Nat) (w : Nat)
    (line : Text) (rows : List Row) (z left : Text) : Prop where
  weightless : ∀ c ∈ z, cells char_width c = 0
  either : z = [] ∨ left = []
  loose : Loose (cells char_width) w line ↔ z ≠ []
  whole : wrap char_width str_width w line = (rows ++ singles str_width z, left)
  goes_on : ∀ u, wrap char_width str_width w (line ++ u) =
    (rows ++ (wrap char_width str_width w (z ++ left ++ u)).1,
      (wrap char_width str_width w (z ++ left ++ u)).2)

/-- Where the next character begins a row, what is before it stays as it is. -/
theorem Wrapped.behind {line s : Text} {rows : List Row} {z left : Text}
    (h : Wrapped char_width str_width w s rows z left) (before : List Row)
    (hloose : Loose (cells char_width) w line ↔ Loose (cells char_width) w s)
    (hwrap : ∀ u, wrap char_width str_width w (line ++ u) =
      (before ++ (wrap char_width str_width w (s ++ u)).1,
        (wrap char_width str_width w (s ++ u)).2)) :
    Wrapped char_width str_width w line (before ++ rows) z left := by
  refine ⟨h.weightless, h.either, hloose.trans h.loose, ?_, ?_⟩
  · have hline := hwrap []
    rw [List.append_nil, List.append_nil, h.whole] at hline
    rw [hline, List.append_assoc]
  · intro u
    rw [hwrap u, h.goes_on u]
    simp only [List.append_assoc]

variable (str_width) in
theorem exists_wrapped (hw : 0 < w) (line : Text) :
    ∃ rows z left, Wrapped char_width str_width w line rows z left := by
  induction line using wrap_induction char_width hw with
  | nil =>
    refine ⟨[], [], [], by simp, .inl rfl, ?_, rfl, fun u => rfl⟩
    simp [Loose, reads]
  | single ch t hfits ih =>
    by_cases hvisible : ∃ c ∈ ch :: t, 0 < cells char_width c
    · -- Nothing that follows makes a row of the first character.
      obtain ⟨rows, z, left, hwrapped⟩ := ih
      refine ⟨make_row str_width [ch] false :: rows, z, left, ?_⟩
      apply hwrapped.behind [make_row str_width [ch] false]
      · have hskip := zero_or_wide hfits
        by_cases ht : t = []
        · subst ht
          have hwide : w < cells char_width ch := by
            simp only [List.mem_singleton, exists_eq_left] at hvisible
            omega
          have hnone : reads (cells char_width) w none [ch] = none := next_wide none hwide
          unfold Loose
          rw [hnone]
          rfl
        · unfold Loose
          rw [reads_skip hw hskip ht]
      · intro u
        have hnot : ¬ Fits (cells char_width) w (ch :: (t ++ u)) := by
          intro h
          exact hfits (fits_of_append (u := u) hvisible h)
        rw [List.cons_append, wrap_of_not_fits hw hnot]
        rfl
    · have hzero : ∀ c ∈ ch :: t, cells char_width c = 0 := by
        push Not at hvisible
        exact fun c hc => Nat.le_zero.mp (hvisible c hc)
      refine ⟨[], ch :: t, [], hzero, .inr rfl, ?_, ?_, by simp⟩
      · exact iff_of_true (reads_none_weightless hw hzero (by simp)) (by simp)
      · have hwrap := wrap_weightless str_width hw hzero not_fits_nil
        simpa using hwrap
  | last line hfits hrow =>
    refine ⟨[], [], line, by simp, .inl rfl, ?_, ?_, by simp⟩
    · simpa using hrow.not_loose
    · rw [wrap_of_first hw hfits hrow, if_pos rfl]
      rfl
  | row p s hfits hrow hs ih =>
    obtain ⟨rows, z, left, hwrapped⟩ := ih
    refine ⟨make_row str_width p false :: rows, z, left, ?_⟩
    apply hwrapped.behind [make_row str_width p false]
    · unfold Loose
      rw [FillsRow.reads_behind (by simpa using hrow.ends) (List.append_nil s).symm hs]
    · intro u
      have hlonger := hrow.first_append hs u
      rw [wrap_of_first hw (fits_append hfits u) hlonger, if_neg (by simp [hs])]
      rfl

/-- A line can be wrapped in two parts, unless characters without cells end the first one and
something that fits follows. -/
theorem wrap_append (hw : 0 < w) {line u : Text}
    (h : ¬ (Loose (cells char_width) w line ∧ Fits (cells char_width) w u)) :
    wrap char_width str_width w (line ++ u) =
      ((wrap char_width str_width w line).1 ++
          (wrap char_width str_width w ((wrap char_width str_width w line).2 ++ u)).1,
        (wrap char_width str_width w ((wrap char_width str_width w line).2 ++ u)).2) := by
  obtain ⟨rows, z, left, hwrapped⟩ := exists_wrapped str_width hw line
  rw [hwrapped.goes_on u, hwrapped.whole]
  by_cases hz : z = []
  · subst hz
    simp [singles]
  · have hleft : left = [] := hwrapped.either.resolve_left hz
    have hnot : ¬ Fits (cells char_width) w u := fun hfits => h ⟨hwrapped.loose.mpr hz, hfits⟩
    subst hleft
    rw [List.append_nil, wrap_weightless str_width hw hwrapped.weightless hnot, List.append_assoc]
    rfl

/-! ## The texts of the rows -/

theorem text_of_append (a b : List Row) : text_of (a ++ b) = text_of a ++ text_of b := by
  simp [text_of]

/-- The rows and what is left are the line. -/
theorem wrap_text (hw : 0 < w) (line : Text) :
    text_of (wrap char_width str_width w line).1 ++ (wrap char_width str_width w line).2 =
      line := by
  induction line using wrap_induction char_width hw with
  | nil => rfl
  | single ch t hfits ih =>
    rw [wrap_of_not_fits hw hfits]
    simpa [text_of, make_row] using ih
  | last line hfits hrow =>
    rw [wrap_of_first hw hfits hrow, if_pos rfl]
    rfl
  | row p s hfits hrow hs ih =>
    rw [wrap_of_first hw hfits hrow, if_neg hs]
    simpa [text_of, make_row] using ih

/-- The texts that a line shows: those of its rows and what is left. -/
def shown (char_width : Char → Option Nat) (str_width : Text → Nat) (w : Nat) (line : Text) :
    List Text :=
  (wrap char_width str_width w line).1.map Row.text ++ [(wrap char_width str_width w line).2]

variable (char_width str_width) in
/-- The texts of two characters or more are the rows that the characters fill. -/
theorem mem_shown_iff (hw : 0 < w) {line p : Text} (hp : 1 < p.length) :
    p ∈ shown char_width str_width w line ↔
      ∃ u v, FillsRow (cells char_width) w line p u v := by
  induction line using wrap_induction char_width hw with
  | nil =>
    constructor
    · intro hmem
      simp [shown] at hmem
      simp [hmem] at hp
    · rintro ⟨u, v, hrow⟩
      have hparts := hrow.parts
      have hne := hrow.ne_nil
      simp [hne] at hparts
  | single ch t hfits ih =>
    have hshown : shown char_width str_width w (ch :: t) =
        [ch] :: shown char_width str_width w t := by
      unfold shown
      rw [wrap_of_not_fits hw hfits]
      rfl
    rw [hshown, List.mem_cons, ih]
    constructor
    · rintro (rfl | ⟨u, v, hrow⟩)
      · simp at hp
      · exact ⟨ch :: u, v, hrow.behind_single hw hfits⟩
    · rintro ⟨u, v, hrow⟩
      obtain ⟨u', -, hrest⟩ := hrow.of_behind_single hw hfits hp
      exact .inr ⟨u', v, hrest⟩
  | last line hfits hrow =>
    have hshown : shown char_width str_width w line = [line] := by
      unfold shown
      rw [wrap_of_first hw hfits hrow, if_pos rfl]
      rfl
    rw [hshown, List.mem_singleton]
    constructor
    · rintro rfl
      exact ⟨[], [], hrow⟩
    · rintro ⟨u, v, hother⟩
      rcases hrow.first_or_behind hother with ⟨-, heq, -⟩ | ⟨u', -, hrest⟩
      · exact heq
      · have hparts := hrest.parts
        have hne := hrest.ne_nil
        simp [hne] at hparts
  | row a s hfits hrow hs ih =>
    have hshown : shown char_width str_width w (a ++ s) =
        a :: shown char_width str_width w s := by
      unfold shown
      rw [wrap_of_first hw hfits hrow, if_neg hs]
      rfl
    rw [hshown, List.mem_cons, ih]
    constructor
    · rintro (rfl | ⟨u, v, hother⟩)
      · exact ⟨[], s, hrow⟩
      · exact ⟨a ++ u, v, hother.behind (by simpa using hrow.ends)⟩
    · rintro ⟨u, v, hother⟩
      rcases hrow.first_or_behind hother with ⟨-, heq, -⟩ | ⟨u', -, hrest⟩
      · exact .inl heq
      · exact .inr ⟨u', v, hrest⟩

end Ecode.live_wrap
