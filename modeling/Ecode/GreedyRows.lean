-- Rows that are filled one item after another: how much of the row is taken, and where the next
-- row starts.
import Mathlib

namespace Ecode.greedy

variable {α : Type} (cells : α → Nat) (w : Nat)

/-- What is taken of the row that the item is put into. An item that does not fit starts a row. -/
def taken : Option Nat → α → Nat
  | none, c => cells c
  | some n, c => if n + cells c ≤ w then n + cells c else cells c

/-- What is taken of the row after one more item. There is no row before the first item and after
an item that fills its row. -/
def next (row : Option Nat) (c : α) : Option Nat :=
  if w ≤ taken cells w row c then none else some (taken cells w row c)

def reads (row : Option Nat) (t : List α) : Option Nat := t.foldl (next cells w) row

/-- A row starts with the item. -/
def Starts (row : Option Nat) (c : α) : Prop := ∀ n, row = some n → w < n + cells c

/-- Items without cells begin the row, and nothing else is in it. -/
def Loose (t : List α) : Prop := reads cells w none t = some 0

/-- Behind items without cells comes one that fits into a row. -/
def Fits (t : List α) : Prop :=
  ∃ y v u, t = y ++ v :: u ∧ (∀ c ∈ y, cells c = 0) ∧ 0 < cells v ∧ cells v ≤ w

/-- The items that fill one row of a line, some of them with cells. -/
structure FillsRow (line p : List α) (u v : List α) : Prop where
  parts : line = u ++ p ++ v
  begins : ∀ c ∈ p.head?, Starts cells w (reads cells w none u) c
  inside : ∀ q c q', p = q ++ c :: q' → q ≠ [] → ¬ Starts cells w (reads cells w none (u ++ q)) c
  ends : ∀ c ∈ v.head?, Starts cells w (reads cells w none (u ++ p)) c
  visible : ∃ c ∈ p, 0 < cells c

variable {cells w} {row : Option Nat} {c : α} {t u : List α}

theorem reads_append (row : Option Nat) (t u : List α) :
    reads cells w row (t ++ u) = reads cells w (reads cells w row t) u :=
  List.foldl_append

theorem reads_cons (row : Option Nat) (c : α) (t : List α) :
    reads cells w row (c :: t) = reads cells w (next cells w row c) t := rfl

theorem next_of_starts (h : Starts cells w row c) :
    next cells w row c = next cells w none c := by
  cases row with
  | none => rfl
  | some n =>
    have hwide := h n rfl
    unfold next taken
    simp only [if_neg (not_le.mpr hwide)]

/-- Beginning a row takes nothing. -/
theorem next_zero (c : α) : next cells w (some 0) c = next cells w none c := by
  unfold next taken
  simp only [Nat.zero_add, ite_self]

theorem reads_zero (h : t ≠ []) : reads cells w (some 0) t = reads cells w none t := by
  cases t with
  | nil => exact absurd rfl h
  | cons c t => rw [reads_cons, reads_cons, next_zero]

theorem next_fits {n : Nat} (h : n + cells c < w) :
    next cells w (some n) c = some (n + cells c) := by
  have htaken : taken cells w (some n) c = n + cells c := if_pos h.le
  unfold next
  rw [htaken, if_neg (by omega)]

theorem next_fills {n : Nat} (h : n + cells c = w) : next cells w (some n) c = none := by
  have htaken : taken cells w (some n) c = n + cells c := if_pos h.le
  unfold next
  rw [htaken, if_pos h.ge]

theorem next_wide (row : Option Nat) (h : w < cells c) : next cells w row c = none := by
  have hle : cells c ≤ taken cells w row c := by
    cases row with
    | none => exact le_rfl
    | some n =>
      have htaken : taken cells w (some n) c = if n + cells c ≤ w then n + cells c else cells c :=
        rfl
      rw [htaken]
      split_ifs <;> omega
  unfold next
  rw [if_pos (by omega)]

/-- Items without cells leave what is taken. -/
theorem reads_weightless {n : Nat} (ht : ∀ c ∈ t, cells c = 0) (hn : n < w) :
    reads cells w (some n) t = some n := by
  induction t with
  | nil => rfl
  | cons c t ih =>
    have hc := ht c List.mem_cons_self
    rw [reads_cons, next_fits (by omega), hc]
    exact ih fun b hb => ht b (List.mem_cons_of_mem c hb)

/-- Items that fill a row, or whose last one does not fit, are read as if nothing were before
what follows. -/
theorem reads_restart {a : List α} (h : Starts cells w (reads cells w none a) c) :
    reads cells w none (a ++ c :: t) = reads cells w none (c :: t) := by
  rw [reads_append, reads_cons, reads_cons, next_of_starts h]

/-- An item that takes nothing of the row, or more than a row has, leaves nothing. -/
theorem reads_skip (hw : 0 < w) (hc : cells c = 0 ∨ w < cells c) (ht : t ≠ []) :
    reads cells w none (c :: t) = reads cells w none t := by
  rw [reads_cons]
  rcases hc with hzero | hwide
  · have hnext : next cells w none c = some 0 := by
      unfold next
      rw [show taken cells w none c = 0 from hzero, if_neg (by omega)]
    rw [hnext, reads_zero ht]
  · rw [next_wide none hwide]

theorem reads_none_weightless (hw : 0 < w) (ht : ∀ c ∈ t, cells c = 0) (hne : t ≠ []) :
    reads cells w none t = some 0 := by
  rw [← reads_zero hne]
  exact reads_weightless ht hw

/-- A row that no item inside it starts takes the cells of its items, or it is full. -/
theorem reads_row {p : List α} (hne : p ≠ [])
    (h : ∀ q c q', p = q ++ c :: q' → q ≠ [] → ¬ Starts cells w (reads cells w none q) c) :
    reads cells w none p = none ∨ reads cells w none p = some (p.map cells).sum := by
  have hstep : ∀ row c, next cells w row c = none ∨
      next cells w row c = some (taken cells w row c) := by
    intro row c
    unfold next
    split_ifs
    · exact .inl rfl
    · exact .inr rfl
  induction p using List.reverseRecOn with
  | nil => exact absurd rfl hne
  | append_singleton p c ih =>
    rw [reads_append]
    by_cases hp : p = []
    · subst hp
      simpa [reads, taken] using hstep none c
    · have hinside : ∀ q d q', p = q ++ d :: q' → q ≠ [] →
          ¬ Starts cells w (reads cells w none q) d := by
        intro q d q' hq
        exact h q d (q' ++ [c]) (by simp [hq])
      have hlast := h p c [] rfl hp
      rcases ih hp hinside with hfull | hsum
      · rw [hfull] at hlast
        exact absurd (fun n hn => by cases hn) hlast
      · have hfit : (p.map cells).sum + cells c ≤ w := by
          by_contra hwide
          rw [hsum] at hlast
          apply hlast
          intro n hn
          obtain rfl := Option.some.inj hn
          omega
        have htaken : taken cells w (some (p.map cells).sum) c = (p.map cells).sum + cells c :=
          if_pos hfit
        have hlaststep := hstep (some (p.map cells).sum) c
        rw [htaken] at hlaststep
        rw [hsum]
        simpa [reads] using hlaststep

/-! ## The first row -/

/-- An item with cells, and what is before the first such item. -/
theorem exists_first_visible {p : List α} (h : ∃ c ∈ p, 0 < cells c) :
    ∃ y v q, p = y ++ v :: q ∧ (∀ c ∈ y, cells c = 0) ∧ 0 < cells v := by
  induction p with
  | nil => simp at h
  | cons c p ih =>
    by_cases hc : 0 < cells c
    · exact ⟨[], c, p, rfl, by simp, hc⟩
    · have hrest : ∃ d ∈ p, 0 < cells d := by simpa [hc] using h
      obtain ⟨y, v, q, rfl, hy, hv⟩ := ih hrest
      refine ⟨c :: y, v, q, rfl, ?_, hv⟩
      intro d hd
      rcases List.mem_cons.mp hd with rfl | hd
      · omega
      · exact hy d hd

theorem fits_cons_of_weightless (hc : cells c = 0) (h : Fits cells w t) :
    Fits cells w (c :: t) := by
  obtain ⟨y, v, u, rfl, hy, hv⟩ := h
  refine ⟨c :: y, v, u, rfl, ?_, hv⟩
  intro d hd
  rcases List.mem_cons.mp hd with rfl | hd
  · exact hc
  · exact hy d hd

theorem fits_append (h : Fits cells w t) (u : List α) : Fits cells w (t ++ u) := by
  obtain ⟨y, v, q, rfl, hy, hv⟩ := h
  exact ⟨y, v, q ++ u, by simp, hy, hv⟩

theorem fits_of_cons (hc : cells c = 0) (h : Fits cells w (c :: t)) : Fits cells w t := by
  obtain ⟨y, v, u, hline, hy, hv⟩ := h
  rcases y with _ | ⟨d, y⟩
  · obtain ⟨rfl, -⟩ := List.cons.inj hline
    omega
  · obtain ⟨-, rfl⟩ := List.cons.inj hline
    exact ⟨y, v, u, rfl, fun e he => hy e (List.mem_cons_of_mem d he), hv⟩

/-- When the first item with cells does not fit, nothing behind it changes that. -/
theorem fits_of_append (hvisible : ∃ c ∈ t, 0 < cells c) (h : Fits cells w (t ++ u)) :
    Fits cells w t := by
  induction t with
  | nil => simp at hvisible
  | cons c t ih =>
    by_cases hc : cells c = 0
    · apply fits_cons_of_weightless hc
      exact ih (by simpa [hc] using hvisible) (fits_of_cons hc h)
    · obtain ⟨y, v, q, hline, hy, hv, hle⟩ := h
      rcases y with _ | ⟨d, y⟩
      · obtain ⟨rfl, -⟩ := List.cons.inj hline
        exact ⟨[], c, t, rfl, by simp, hv, hle⟩
      · obtain ⟨rfl, -⟩ := List.cons.inj hline
        exact absurd (hy c List.mem_cons_self) hc

theorem zero_or_wide (h : ¬ Fits cells w (c :: t)) : cells c = 0 ∨ w < cells c := by
  by_contra hboth
  push Not at hboth
  exact h ⟨[], c, t, rfl, by simp, by omega, hboth.2⟩

namespace FillsRow

variable {line p s v : List α}

theorem ne_nil (h : FillsRow cells w line p u v) : p ≠ [] := by
  rintro rfl
  simpa using h.visible

/-- Behind a row with cells nothing is loose. -/
theorem not_loose (h : FillsRow cells w line p [] s) : ¬ Loose cells w p := by
  intro hloose
  obtain ⟨c, hc, hpos⟩ := h.visible
  have hsum : cells c ≤ (p.map cells).sum := List.single_le_sum (by simp) _ (List.mem_map_of_mem hc)
  unfold Loose at hloose
  rcases reads_row h.ne_nil h.inside with hfull | hrow
  · rw [hfull] at hloose
    cases hloose
  · rw [hrow] at hloose
    have hzero := Option.some.inj hloose
    omega

/-- The first row has an item that fits, or it is one item alone. -/
theorem fits_or_wide (hw : 0 < w) (h : FillsRow cells w line p [] s) :
    Fits cells w line ∨ ∃ c, p = [c] ∧ w < cells c := by
  obtain ⟨y, v, q, rfl, hy, hv⟩ := exists_first_visible h.visible
  have hline : line = y ++ v :: (q ++ s) := by simpa using h.parts
  by_cases hwide : w < cells v
  · right
    have hnone : y = [] := by
      by_contra hne
      apply h.inside y v q rfl hne
      intro n hn
      rw [List.nil_append, reads_none_weightless hw hy hne] at hn
      cases hn
      omega
    subst hnone
    rcases q with _ | ⟨c, q⟩
    · exact ⟨v, rfl, hwide⟩
    · -- After an item wider than a row every item starts one.
      refine absurd ?_ (h.inside [v] c q rfl (by simp))
      intro n hn
      rw [List.nil_append, reads_cons, next_wide none hwide] at hn
      cases hn
  · left
    exact ⟨y, v, q ++ s, hline, hy, hv, not_lt.mp hwide⟩

/-- What is read behind a row's end is read as from a line's start. -/
theorem reads_behind {a s : List α} (h : ∀ c ∈ s.head?, Starts cells w (reads cells w none a) c)
    {x y : List α} (hs : s = x ++ y) (hx : x ≠ []) :
    reads cells w none (a ++ x) = reads cells w none x := by
  obtain ⟨c, x, rfl⟩ := List.exists_cons_of_ne_nil hx
  apply reads_restart
  apply h c
  rw [hs]
  rfl

/-- The rows of what follows a row are rows of the line. -/
theorem behind {a : List α} (hends : ∀ c ∈ s.head?, Starts cells w (reads cells w none a) c)
    (h : FillsRow cells w s p u v) : FillsRow cells w (a ++ s) p (a ++ u) v := by
  have hs := h.parts
  have hp := h.ne_nil
  refine ⟨by simp [hs], ?_, ?_, ?_, h.visible⟩
  · intro c hc
    by_cases hu : u = []
    · subst hu
      rw [List.append_nil]
      apply hends c
      rw [hs, List.nil_append, List.head?_append_of_ne_nil _ hp]
      exact hc
    · rw [reads_behind hends (y := p ++ v) (by simp [hs]) hu]
      exact h.begins c hc
  · intro q c q' hq hne
    rw [List.append_assoc,
      reads_behind hends (y := c :: q' ++ v) (by simp [hs, hq]) (by simp [hne])]
    exact h.inside q c q' hq hne
  · intro c hc
    rw [List.append_assoc, reads_behind hends hs (by simp [hp])]
    exact h.ends c hc

theorem of_behind {a : List α} (hends : ∀ c ∈ s.head?, Starts cells w (reads cells w none a) c)
    (hs : s = u ++ p ++ v) (h : FillsRow cells w (a ++ s) p (a ++ u) v) :
    FillsRow cells w s p u v := by
  have hp := h.ne_nil
  refine ⟨hs, ?_, ?_, ?_, h.visible⟩
  · intro c hc
    by_cases hu : u = []
    · subst hu
      intro n hn
      cases hn
    · rw [← reads_behind hends (y := p ++ v) (by simp [hs]) hu]
      exact h.begins c hc
  · intro q c q' hq hne
    rw [← reads_behind hends (y := c :: q' ++ v) (by simp [hs, hq]) (by simp [hne]),
      ← List.append_assoc]
    exact h.inside q c q' hq hne
  · intro c hc
    rw [← reads_behind hends hs (by simp [hp]), ← List.append_assoc]
    exact h.ends c hc

/-- Two rows that begin a line are one. -/
theorem first_unique {a : List α} (ha : FillsRow cells w line a [] s)
    (h : FillsRow cells w line p [] v) : p = a ∧ v = s := by
  have hline : a ++ s = p ++ v := by simpa using ha.parts.symm.trans h.parts
  rcases List.append_eq_append_iff.mp hline with ⟨x, rfl, hx⟩ | ⟨x, rfl, hx⟩
  · rcases x with _ | ⟨c, x⟩
    · exact ⟨List.append_nil a, by simpa using hx.symm⟩
    · refine absurd ?_ (h.inside a c x rfl ha.ne_nil)
      exact ha.ends c (by simp [hx])
  · rcases x with _ | ⟨c, x⟩
    · exact ⟨(List.append_nil p).symm, by simpa using hx⟩
    · refine absurd ?_ (ha.inside p c x rfl h.ne_nil)
      exact h.ends c (by simp [hx])

/-- Every row of a line is its first one or lies behind it. -/
theorem first_or_behind {a : List α} (ha : FillsRow cells w line a [] s)
    (h : FillsRow cells w line p u v) :
    (u = [] ∧ p = a ∧ v = s) ∨ ∃ u', u = a ++ u' ∧ FillsRow cells w s p u' v := by
  have hleft : line = a ++ s := ha.parts
  have hline : a ++ s = u ++ (p ++ v) := by
    rw [← hleft, h.parts, List.append_assoc]
  -- A row that begins inside the first one begins with it.
  have hbegin : ∀ x, a = u ++ x → x ≠ [] → u = [] := by
    intro x hx hne
    by_contra hu
    obtain ⟨c, x, rfl⟩ := List.exists_cons_of_ne_nil hne
    refine absurd ?_ (ha.inside u c x hx hu)
    apply h.begins c
    rw [hx, List.append_assoc, List.append_cancel_left_eq] at hline
    have hhead := congrArg List.head? hline
    rw [List.head?_append_of_ne_nil p h.ne_nil] at hhead
    rw [← hhead]
    rfl
  rcases List.append_eq_append_iff.mp hline with ⟨u', rfl, hs⟩ | ⟨x, hx, hv⟩
  · right
    refine ⟨u', rfl, ?_⟩
    apply of_behind (by simpa using ha.ends) (by simpa using hs)
    rwa [← hleft]
  · by_cases hne : x = []
    · subst hne
      right
      refine ⟨[], by simpa using hx.symm, ?_⟩
      apply of_behind (a := a) (by simpa using ha.ends) (by simpa using hv.symm)
      rw [← hleft]
      simpa [hx] using h
    · left
      obtain rfl := hbegin x hx hne
      exact ⟨rfl, first_unique ha h⟩

/-- The first row stays when the line goes on behind the next one's start. -/
theorem first_append (h : FillsRow cells w line p [] s) (hs : s ≠ []) (t : List α) :
    FillsRow cells w (line ++ t) p [] (s ++ t) := by
  refine ⟨by simp [h.parts], h.begins, h.inside, ?_, h.visible⟩
  rw [List.head?_append_of_ne_nil s hs]
  exact h.ends

/-- An item that takes nothing of a row, or more than a row has, with no item that fits behind
it, is no part of the rows behind it. -/
theorem behind_single (hw : 0 < w) (hc : ¬ Fits cells w (c :: line))
    (h : FillsRow cells w line p u v) : FillsRow cells w (c :: line) p (c :: u) v := by
  have hskip := zero_or_wide hc
  have hp := h.ne_nil
  refine ⟨by simp [h.parts], ?_, ?_, ?_, h.visible⟩
  · by_cases hu : u = []
    · subst hu
      intro d hd
      rcases hskip with hzero | hwide
      · rcases fits_or_wide hw h with hfits | ⟨e, rfl, he⟩
        · exact absurd (fits_cons_of_weightless hzero hfits) hc
        · obtain rfl : e = d := by simpa using hd
          intro n _
          omega
      · intro n hn
        rw [reads_cons, next_wide none hwide] at hn
        cases hn
    · rw [reads_skip hw hskip hu]
      exact h.begins
  · intro q d q' hq hne
    rw [List.cons_append, reads_skip hw hskip (by simp [hne])]
    exact h.inside q d q' hq hne
  · rw [List.cons_append, reads_skip hw hskip (by simp [hp])]
    exact h.ends

theorem of_behind_single (hw : 0 < w) (hc : ¬ Fits cells w (c :: line))
    (h : FillsRow cells w (c :: line) p u v) (hlen : 1 < p.length) :
    ∃ u', u = c :: u' ∧ FillsRow cells w line p u' v := by
  have hskip := zero_or_wide hc
  have hp := h.ne_nil
  rcases u with _ | ⟨d, u⟩
  · rcases fits_or_wide hw h with hfits | ⟨d, rfl, -⟩
    · exact absurd hfits hc
    · simp at hlen
  · have hparts : c :: line = d :: (u ++ p ++ v) := by simpa using h.parts
    obtain ⟨rfl, hline⟩ := List.cons.inj hparts
    refine ⟨u, rfl, hline, ?_, ?_, ?_, h.visible⟩
    · by_cases hu : u = []
      · subst hu
        intro e _ n hn
        cases hn
      · rw [← reads_skip hw hskip hu]
        exact h.begins
    · intro q e q' hq hne
      rw [← reads_skip hw hskip (by simp [hne]), ← List.cons_append]
      exact h.inside q e q' hq hne
    · rw [← reads_skip hw hskip (by simp [hp]), ← List.cons_append]
      exact h.ends

end FillsRow

end Ecode.greedy
