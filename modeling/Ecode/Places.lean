-- The places of a list at which a test holds, from the first on: which they are, which are
-- the last few, and the first of them past a place; and what is left of a list of which some
-- places are kept. Elements and tests are arbitrary.
import Mathlib

namespace Ecode.placing

variable {A : Type}

/-- The places of the elements that meet a test, in their order. -/
def places (p : A → Bool) (l : List A) : List Nat :=
  (l.zipIdx.filter fun x => p x.1).map Prod.snd

variable {p : A → Bool}

theorem places_cons (a : A) (l : List A) :
    places p (a :: l) = (if p a then [0] else []) ++ (places p l).map (· + 1) := by
  unfold places
  rw [List.zipIdx_cons', List.filter_cons, List.filter_map, List.map_map]
  split
  · simp [Function.comp_def, *]
  · simp [Function.comp_def, *]

theorem places_concat (l : List A) (a : A) :
    places p (l ++ [a]) = places p l ++ if p a then [l.length] else [] := by
  unfold places
  rw [List.zipIdx_append, List.filter_append, List.map_append, Nat.zero_add]
  simp only [List.zipIdx_singleton, List.filter_singleton]
  cases p a <;> rfl

theorem mem_places {l : List A} {i : Nat} :
    i ∈ places p l ↔ ∃ a, l[i]? = some a ∧ p a = true := by
  unfold places
  constructor
  · intro h
    obtain ⟨⟨a, j⟩, hmem, rfl⟩ := List.mem_map.mp h
    obtain ⟨hat, hp⟩ := List.mem_filter.mp hmem
    exact ⟨a, List.mem_zipIdx_iff_getElem?.mp hat, hp⟩
  · rintro ⟨a, hat, hp⟩
    apply List.mem_map.mpr
    exact ⟨(a, i), List.mem_filter.mpr ⟨List.mem_zipIdx_iff_getElem?.mpr hat, hp⟩, rfl⟩

theorem places_sorted (l : List A) : (places p l).Pairwise (· < ·) := by
  have hall : (l.zipIdx.map Prod.snd).Pairwise (· < ·) := by
    rw [List.zipIdx_map_snd]
    exact List.pairwise_lt_range'
  exact List.Pairwise.sublist (List.filter_sublist.map Prod.snd) hall

theorem length_places (l : List A) : (places p l).length = l.countP p := by
  induction l with
  | nil => rfl
  | cons a l ih =>
    rw [places_cons, List.length_append, List.length_map, ih, List.countP_cons]
    split <;> simp [Nat.add_comm]

/-- The last `n` places are those with fewer than `n` after them. -/
theorem mem_last_places {l : List A} {n i : Nat} :
    i ∈ (places p l).reverse.take n ↔
      (∃ a, l[i]? = some a ∧ p a = true) ∧ (l.drop (i + 1)).countP p < n := by
  induction l generalizing i with
  | nil => simp [places]
  | cons a l ih =>
    rw [places_cons, List.reverse_append, List.take_append, List.mem_append, List.length_reverse,
      List.length_map, length_places, ← List.map_reverse, ← List.map_take]
    cases i with
    | zero =>
      have hmapped : 0 ∉ ((places p l).reverse.take n).map (· + 1) := by
        intro hmem
        obtain ⟨j, -, hj⟩ := List.mem_map.mp hmem
        exact absurd hj (Nat.succ_ne_zero j)
      simp only [hmapped, false_or, List.getElem?_cons_zero, Option.some.injEq, exists_eq_left',
        List.drop_succ_cons, List.drop_zero]
      by_cases hp : p a = true
      · rw [if_pos hp, List.reverse_singleton]
        rcases Nat.lt_or_ge (l.countP p) n with hlt | hge
        · obtain ⟨k, hk⟩ := Nat.exists_eq_add_of_lt hlt
          have hone : n - l.countP p = k + 1 := by omega
          simp [hone, hp, hlt]
        · have hnone : n - l.countP p = 0 := by omega
          simp [hnone, Nat.not_lt.mpr hge]
      · simp [hp]
    | succ i =>
      have hlast : i + 1 ∉ (if p a then [0] else []).reverse.take (n - l.countP p) := by
        intro hmem
        have hzero := List.mem_reverse.mp (List.mem_of_mem_take hmem)
        split at hzero <;> simp at hzero
      rw [or_iff_left hlast, List.getElem?_cons_succ, List.drop_succ_cons, ← ih]
      apply List.mem_map_of_injective
      exact add_left_injective 1

theorem getLast?_places {l : List A} {i : Nat} :
    (places p l).getLast? = some i ↔
      (∃ a, l[i]? = some a ∧ p a = true) ∧ (l.drop (i + 1)).countP p = 0 := by
  have hone : i ∈ (places p l).reverse.take 1 ↔ (places p l).getLast? = some i := by
    rw [List.getLast?_eq_head?_reverse]
    cases (places p l).reverse <;> simp [eq_comm]
  rw [← hone, mem_last_places, Nat.lt_one_iff]

/-- In a sorted list the first element that meets a test is below all others that do. -/
theorem find?_sorted {l : List Nat} (h : l.Pairwise (· < ·)) {q : Nat → Bool} {j : Nat} :
    l.find? q = some j ↔ j ∈ l ∧ q j = true ∧ ∀ k ∈ l, k < j → q k = false := by
  induction l with
  | nil => simp
  | cons a l ih =>
    obtain ⟨hbefore, htail⟩ := List.pairwise_cons.mp h
    rw [List.find?_cons]
    split
    · next hq =>
      constructor
      · intro heq
        obtain rfl := Option.some.inj heq
        refine ⟨List.mem_cons_self, hq, ?_⟩
        intro k hk hlt
        rcases List.mem_cons.mp hk with rfl | hk
        · exact absurd hlt (Nat.lt_irrefl _)
        · exact absurd hlt (Nat.lt_asymm (hbefore k hk))
      · rintro ⟨hmem, -, hfirst⟩
        rcases List.mem_cons.mp hmem with rfl | hmem
        · rfl
        · exact absurd hq (by simp [hfirst a List.mem_cons_self (hbefore j hmem)])
    · next hq =>
      rw [ih htail]
      constructor
      · rintro ⟨hmem, hqj, hfirst⟩
        refine ⟨List.mem_cons_of_mem _ hmem, hqj, ?_⟩
        intro k hk hlt
        rcases List.mem_cons.mp hk with rfl | hk
        · exact hq
        · exact hfirst k hk hlt
      · rintro ⟨hmem, hqj, hfirst⟩
        rcases List.mem_cons.mp hmem with rfl | hmem
        · exact absurd hqj (by simp [hq])
        · exact ⟨hmem, hqj, fun k hk hlt => hfirst k (List.mem_cons_of_mem _ hk) hlt⟩

/-! ## What is kept place by place -/

/-- The elements at the places that `keep` keeps. -/
def keep_at (keep : Nat → Bool) (l : List A) : List A :=
  (l.zipIdx.filter fun x => keep x.2).map Prod.fst

theorem keep_at_cons (keep : Nat → Bool) (a : A) (l : List A) :
    keep_at keep (a :: l) = (if keep 0 then [a] else []) ++ keep_at (fun i => keep (i + 1)) l := by
  unfold keep_at
  rw [List.zipIdx_cons', List.filter_cons, List.filter_map]
  split
  · simp [Function.comp_def, *]
  · simp [Function.comp_def, *]

theorem keep_at_sublist (keep : Nat → Bool) (l : List A) : (keep_at keep l).Sublist l := by
  have hall : (keep_at keep l).Sublist (l.zipIdx.map Prod.fst) := List.filter_sublist.map Prod.fst
  rwa [List.zipIdx_map_fst] at hall

/-- All elements that meet a test are kept when each of their places is. -/
theorem filter_keep_at_iff (keep : Nat → Bool) (p : A → Bool) (l : List A) :
    (keep_at keep l).filter p = l.filter p ↔
      ∀ i a, l[i]? = some a → p a = true → keep i = true := by
  induction l generalizing keep with
  | nil => simp [keep_at]
  | cons a l ih =>
    have hplaces : (∀ i b, (a :: l)[i]? = some b → p b = true → keep i = true) ↔
        (p a = true → keep 0 = true) ∧
          ∀ i b, l[i]? = some b → p b = true → keep (i + 1) = true := by
      constructor
      · intro h
        exact ⟨h 0 a rfl, fun i b => h (i + 1) b⟩
      · rintro ⟨hfirst, hrest⟩ i b hi hb
        cases i with
        | zero =>
          obtain rfl := Option.some.inj hi
          exact hfirst hb
        | succ i => exact hrest i b hi hb
    rw [hplaces, ← ih, keep_at_cons, List.filter_append]
    by_cases hp : p a = true
    · rw [List.filter_cons_of_pos hp]
      by_cases hkeep : keep 0 = true
      · simp [hkeep, hp]
      · -- The first element is missing: what is kept is shorter.
        have hshort := ((keep_at_sublist (fun i => keep (i + 1)) l).filter p).length_le
        refine iff_of_false ?_ (fun h => hkeep (h.1 hp))
        intro heq
        have hlen := congrArg List.length heq
        simp only [hkeep, Bool.false_eq_true, if_false, List.filter_nil, List.nil_append,
          List.length_cons] at hlen
        omega
    · rw [List.filter_cons_of_neg hp]
      by_cases hkeep : keep 0 = true
      · simp [hkeep, hp]
      · simp [hkeep, hp]

/-! ## Values that increase -/

/-- From each place on the values increase up to the next element that starts over. -/
def IncreasesBetween (starts : A → Bool) (value : A → Nat) (l : List A) : Prop :=
  ∀ (i j : Nat) (x y : A), i < j → l[i]? = some x → l[j]? = some y →
    (∀ k z, i < k → k ≤ j → l[k]? = some z → starts z = false) → value x < value y

/-- One more element starts over or has a larger value than the last one. -/
theorem increasesBetween_concat {starts : A → Bool} {value : A → Nat} {l : List A} {a : A} :
    IncreasesBetween starts value (l ++ [a]) ↔ IncreasesBetween starts value l ∧
      ∀ last, l.getLast? = some last → starts a = false → value last < value a := by
  constructor
  · intro h
    refine ⟨?_, ?_⟩
    · intro i j x y hij hi hj hbetween
      have hjl := (List.getElem?_eq_some_iff.mp hj).1
      refine h i j x y hij ?_ ?_ ?_
      · rw [List.getElem?_append_left (by omega), hi]
      · rw [List.getElem?_append_left hjl, hj]
      · intro k z hik hkj hk
        rw [List.getElem?_append_left (by omega)] at hk
        exact hbetween k z hik hkj hk
    · intro last hlast hstarts
      obtain ⟨older, rfl⟩ := List.getLast?_eq_some_iff.mp hlast
      refine h older.length (older.length + 1) last a (Nat.lt_succ_self _) ?_ ?_ ?_
      · simp
      · simp
      · intro k z hk hk' hz
        obtain rfl : k = older.length + 1 := by omega
        obtain rfl : a = z := by simpa using hz
        exact hstarts
  · rintro ⟨hl, hlast⟩ i j x y hij hi hj hbetween
    by_cases hjl : j < l.length
    · rw [List.getElem?_append_left (by omega)] at hi
      rw [List.getElem?_append_left hjl] at hj
      refine hl i j x y hij hi hj ?_
      intro k z hik hkj hk
      apply hbetween k z hik hkj
      rw [List.getElem?_append_left (by omega), hk]
    · have hj' := (List.getElem?_eq_some_iff.mp hj).1
      rw [List.length_append, List.length_singleton] at hj'
      obtain rfl : j = l.length := by omega
      obtain rfl : a = y := by simpa using hj
      have hstarts := hbetween l.length a hij (Nat.le_refl _) hj
      rw [List.getElem?_append_left hij] at hi
      -- The last element before the new one is reached by increasing values.
      obtain ⟨older, last, rfl⟩ : ∃ older last, l = older ++ [last] := by
        rcases List.eq_nil_or_concat' l with rfl | h
        · exact absurd hij (Nat.not_lt_zero i)
        · exact h
      have hend := hlast last (by simp) hstarts
      rw [List.length_append, List.length_singleton] at hij hbetween
      rcases Nat.lt_or_ge i older.length with hlt | hge
      · refine Nat.lt_trans (hl i older.length x last hlt hi (by simp) ?_) hend
        intro k z hik hkj hk
        apply hbetween k z hik (by omega)
        rw [List.getElem?_append_left, hk]
        rw [List.length_append, List.length_singleton]
        omega
      · obtain rfl : i = older.length := by omega
        obtain rfl : last = x := by simpa using hi
        exact hend

end Ecode.placing
