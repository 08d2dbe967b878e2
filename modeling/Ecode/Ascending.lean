-- Lists in strictly ascending order of a key: the entry API of an ordered map,
-- the binary search of a slice, and why the two agree on such lists.
import Mathlib

namespace Ecode.ascending

variable {α κ : Type} [LinearOrder κ]

/-- Each key stands before the greater ones, and only once. -/
def Ascending (key : α → κ) (l : List α) : Prop := l.Pairwise (fun a b => key a < key b)

/-- The entry at `k` is changed, or a new one is put at its place. -/
def upsert (key : α → κ) (k : κ) (fresh : α) (change : α → α) : List α → List α
  | [] => [fresh]
  | a :: l =>
    if key a < k then a :: upsert key k fresh change l
    else if key a = k then change a :: l
    else fresh :: a :: l

section upsert

variable {key : α → κ} {k : κ} {fresh : α} {change : α → α} {l : List α}

theorem mem_upsert {b : α} (h : b ∈ upsert key k fresh change l) :
    b ∈ l ∨ b = fresh ∨ ∃ a ∈ l, key a = k ∧ b = change a := by
  induction l with
  | nil =>
    right; left
    simpa [upsert] using h
  | cons a l ih =>
    unfold upsert at h
    split_ifs at h with hlt heq
    · rcases List.mem_cons.mp h with rfl | hrest
      · simp
      · rcases ih hrest with hin | hfresh | ⟨c, hc, hk, hb⟩
        · simp [hin]
        · simp [hfresh]
        · exact .inr (.inr ⟨c, List.mem_cons_of_mem a hc, hk, hb⟩)
    · rcases List.mem_cons.mp h with rfl | hrest
      · exact .inr (.inr ⟨a, List.mem_cons_self, heq, rfl⟩)
      · simp [hrest]
    · rcases List.mem_cons.mp h with rfl | hrest
      · simp
      · exact .inl hrest

/-- The keys after an `upsert` are those before it and `k`. -/
theorem key_upsert {b : α} (h : b ∈ upsert key k fresh change l) (hfresh : key fresh = k)
    (hchange : ∀ a, key (change a) = key a) : key b = k ∨ ∃ a ∈ l, key b = key a := by
  rcases mem_upsert h with hin | rfl | ⟨a, ha, _, rfl⟩
  · exact .inr ⟨b, hin, rfl⟩
  · exact .inl hfresh
  · exact .inr ⟨a, ha, hchange a⟩

theorem Ascending.upsert (hfresh : key fresh = k) (hchange : ∀ a, key (change a) = key a)
    (h : Ascending key l) : Ascending key (upsert key k fresh change l) := by
  induction l with
  | nil => simp [Ascending, ascending.upsert]
  | cons a l ih =>
    obtain ⟨hhead, htail⟩ := List.pairwise_cons.mp h
    unfold ascending.upsert
    split_ifs with hlt heq
    · refine List.pairwise_cons.mpr ⟨?_, ih htail⟩
      intro b hb
      rcases key_upsert hb hfresh hchange with hk | ⟨c, hc, hk⟩
      · rw [hk]
        exact hlt
      · rw [hk]
        exact hhead c hc
    · refine List.pairwise_cons.mpr ⟨?_, htail⟩
      intro b hb
      rw [hchange a]
      exact hhead b hb
    · refine List.pairwise_cons.mpr ⟨?_, h⟩
      intro b hb
      have hka : k < key a := lt_of_le_of_ne (not_lt.mp hlt) (Ne.symm heq)
      rw [hfresh]
      rcases List.mem_cons.mp hb with rfl | hrest
      · exact hka
      · exact hka.trans (hhead b hrest)

/-- An amount that is added to an entry, or that a new entry starts with, is added to the total. -/
theorem sum_upsert {w : α → Nat} {n : Nat} (hfresh : w fresh = n)
    (hchange : ∀ a ∈ l, w (change a) = w a + n) :
    ((upsert key k fresh change l).map w).sum = (l.map w).sum + n := by
  induction l with
  | nil => simp [upsert, hfresh]
  | cons a l ih =>
    unfold upsert
    split_ifs with hlt heq
    · have hrest := ih (fun b hb => hchange b (List.mem_cons_of_mem a hb))
      simp only [List.map_cons, List.sum_cons, hrest]
      omega
    · simp only [List.map_cons, List.sum_cons, hchange a List.mem_cons_self]
      omega
    · simp only [List.map_cons, List.sum_cons, hfresh]
      omega

end upsert

/-! ## Binary search -/

/-- The loop of `slice::binary_search_by`: `cmp i` compares element `i` with what is sought, and
the answer is among the `size` elements from `base` on. -/
def search_loop (cmp : Nat → Ordering) : Nat → Nat → Nat → Nat
  | 0, base, _ => base
  | fuel + 1, base, size =>
    if 1 < size then
      let half := size / 2
      let mid := base + half
      search_loop cmp fuel (if cmp mid = .gt then base else mid) (size - half)
    else base

/-- How element `i` compares, with nothing past the end that is smaller than what is sought. -/
def compare_at (f : α → Ordering) (l : List α) (i : Nat) : Ordering := (l[i]?.map f).getD .gt

/-- `slice::binary_search_by`: the position of a match, or where one can be inserted. -/
def binary_search_by (f : α → Ordering) (l : List α) : Except Nat Nat :=
  if l = [] then .error 0
  else
    let base := search_loop (compare_at f l) l.length 0 l.length
    match compare_at f l base with
    | .eq => .ok base
    | .lt => .error (base + 1)
    | .gt => .error base

/-- What the loop keeps: all from `base + size` on is greater, and what is at `base` is not,
unless nothing was found yet. -/
theorem search_loop_spec {cmp : Nat → Ordering}
    (hmono : ∀ i j, i ≤ j → cmp i = .gt → cmp j = .gt) (fuel base size : Nat)
    (hfuel : size ≤ fuel + 1) (hpos : 0 < size) (habove : ∀ j, base + size ≤ j → cmp j = .gt)
    (hbase : base = 0 ∨ cmp base ≠ .gt) :
    (∀ j, search_loop cmp fuel base size < j → cmp j = .gt) ∧
      (search_loop cmp fuel base size = 0 ∨ cmp (search_loop cmp fuel base size) ≠ .gt) := by
  induction fuel generalizing base size with
  | zero =>
    refine ⟨?_, hbase⟩
    intro j hj
    unfold search_loop at hj
    exact habove j (by omega)
  | succ fuel ih =>
    unfold search_loop
    by_cases hsize : 1 < size
    · simp only [hsize, ↓reduceIte]
      by_cases hmid : cmp (base + size / 2) = .gt
      · simp only [hmid, ↓reduceIte]
        refine ih _ _ (by omega) (by omega) ?_ hbase
        intro j hj
        by_cases hend : base + size ≤ j
        · exact habove j hend
        · exact hmono (base + size / 2) j (by omega) hmid
      · simp only [hmid, ↓reduceIte]
        refine ih _ _ (by omega) (by omega) ?_ (.inr hmid)
        intro j hj
        exact habove j (by omega)
    · simp only [hsize, ↓reduceIte]
      exact ⟨fun j hj => habove j (by omega), hbase⟩

/-- Changes the entry that a binary search finds, or inserts a new one where it says. -/
def search_upsert (key : α → κ) (k : κ) (fresh : α) (change : α → α) (l : List α) : List α :=
  match binary_search_by (fun a => compare (key a) k) l with
  | .ok idx => l.modify idx change
  | .error idx => l.insertIdx idx fresh

section search

variable {key : α → κ} {k : κ} {fresh : α} {change : α → α}

theorem upsert_found {before after : List α} {a : α} (hbefore : ∀ b ∈ before, key b < k)
    (ha : key a = k) :
    upsert key k fresh change (before ++ a :: after) = before ++ change a :: after := by
  induction before with
  | nil => simp [upsert, ha]
  | cons b before ih =>
    have hb := hbefore b List.mem_cons_self
    have hrest := ih (fun c hc => hbefore c (List.mem_cons_of_mem b hc))
    simp [upsert, hb, hrest]

theorem upsert_missing {before after : List α} (hbefore : ∀ b ∈ before, key b < k)
    (hafter : ∀ b ∈ after, k < key b) :
    upsert key k fresh change (before ++ after) = before ++ fresh :: after := by
  induction before with
  | nil =>
    cases after with
    | nil => rfl
    | cons a after =>
      have ha := hafter a List.mem_cons_self
      simp [upsert, not_lt_of_gt ha, ne_of_gt ha]
  | cons b before ih =>
    have hb := hbefore b List.mem_cons_self
    have hrest := ih (fun c hc => hbefore c (List.mem_cons_of_mem b hc))
    simp [upsert, hb, hrest]

theorem Ascending.lt_of_lt {l : List α} (h : Ascending key l) {i j : Nat} (hij : i < j)
    (hj : j < l.length) : key l[i] < key l[j] :=
  List.pairwise_iff_getElem.mp h i j (by omega) hj hij

theorem Ascending.take_lt {l : List α} (h : Ascending key l) {i : Nat} (hi : i < l.length) :
    ∀ b ∈ l.take i, key b < key l[i] := by
  intro b hb
  obtain ⟨j, hj, rfl⟩ := List.mem_take_iff_getElem.mp hb
  exact h.lt_of_lt (by omega) hi

theorem compare_at_of_lt {f : α → Ordering} {l : List α} {i : Nat} (hi : i < l.length) :
    compare_at f l i = f l[i] := by
  simp [compare_at, hi]

theorem compare_at_of_le {f : α → Ordering} {l : List α} {i : Nat} (hi : l.length ≤ i) :
    compare_at f l i = .gt := by
  simp [compare_at, hi]

/-- Past an element that is greater than the sought one, all are. -/
theorem Ascending.compare_at_gt {l : List α} (h : Ascending key l) (i j : Nat) (hij : i ≤ j)
    (hi : compare_at (fun a => compare (key a) k) l i = .gt) :
    compare_at (fun a => compare (key a) k) l j = .gt := by
  by_cases hj : j < l.length
  · have hlen : i < l.length := by omega
    rw [compare_at_of_lt hlen, compare_gt_iff_gt] at hi
    rw [compare_at_of_lt hj, compare_gt_iff_gt]
    rcases Nat.eq_or_lt_of_le hij with rfl | hlt
    · exact hi
    · exact hi.trans (h.lt_of_lt hlt hj)
  · exact compare_at_of_le (Nat.le_of_not_lt hj)

/-- What a binary search tells on an ascending list. -/
def Sought (key : α → κ) (k : κ) (l : List α) : Except Nat Nat → Prop
  | .ok i => ∃ a, l[i]? = some a ∧ key a = k ∧ ∀ b ∈ l.take i, key b < k
  | .error i => i ≤ l.length ∧ (∀ b ∈ l.take i, key b < k) ∧ ∀ b ∈ l.drop i, k < key b

theorem drop_gt {l : List α} {i : Nat}
    (h : ∀ j, i ≤ j → compare_at (fun a => compare (key a) k) l j = .gt) :
    ∀ b ∈ l.drop i, k < key b := by
  intro b hb
  obtain ⟨j, hj, rfl⟩ := List.mem_drop_iff_getElem.mp hb
  have hgt := h (i + j) (by omega)
  rwa [compare_at_of_lt (by omega), compare_gt_iff_gt] at hgt

theorem binary_search_by_spec {l : List α} (h : Ascending key l) :
    Sought key k l (binary_search_by (fun a => compare (key a) k) l) := by
  unfold binary_search_by
  by_cases hnil : l = []
  · simp [hnil, Sought]
  simp only [hnil, ↓reduceIte]
  have hpos : 0 < l.length := List.length_pos_iff.mpr hnil
  obtain ⟨habove, hbase⟩ := search_loop_spec (h.compare_at_gt (k := k)) l.length 0 l.length
    (by omega) hpos (fun j hj => compare_at_of_le (by omega)) (.inl rfl)
  generalize search_loop (compare_at (fun a => compare (key a) k) l) l.length 0 l.length = base
    at habove hbase ⊢
  cases hcmp : compare_at (fun a => compare (key a) k) l base with
  | lt =>
    have hlt : base < l.length := by
      by_contra hge
      rw [compare_at_of_le (Nat.le_of_not_lt hge)] at hcmp
      cases hcmp
    rw [compare_at_of_lt hlt, compare_lt_iff_lt] at hcmp
    refine ⟨hlt, ?_, drop_gt (fun j hj => habove j hj)⟩
    intro b hb
    rw [List.take_succ_eq_append_getElem hlt, List.mem_append, List.mem_singleton] at hb
    rcases hb with hb | rfl
    · exact (h.take_lt hlt b hb).trans hcmp
    · exact hcmp
  | eq =>
    have hlt : base < l.length := by
      by_contra hge
      rw [compare_at_of_le (Nat.le_of_not_lt hge)] at hcmp
      cases hcmp
    rw [compare_at_of_lt hlt, compare_eq_iff_eq] at hcmp
    refine ⟨l[base], List.getElem?_eq_getElem hlt, hcmp, ?_⟩
    intro b hb
    rw [← hcmp]
    exact h.take_lt hlt b hb
  | gt =>
    obtain rfl : base = 0 := hbase.resolve_right (fun hne => hne hcmp)
    refine ⟨Nat.zero_le _, by simp, drop_gt ?_⟩
    intro j _
    exact h.compare_at_gt 0 j (Nat.zero_le j) hcmp

theorem insertIdx_take_drop {l : List α} {i : Nat} (hi : i ≤ l.length) (a : α) :
    l.insertIdx i a = l.take i ++ a :: l.drop i := by
  induction l generalizing i with
  | nil =>
    obtain rfl : i = 0 := by simpa using hi
    rfl
  | cons b l ih =>
    cases i with
    | zero => rfl
    | succ i => simp [ih (Nat.le_of_succ_le_succ hi)]

/-- On an ascending list a binary search and the entry API of a map do the same. -/
theorem search_upsert_eq {l : List α} (h : Ascending key l) :
    search_upsert key k fresh change l = upsert key k fresh change l := by
  have hsought : Sought key k l (binary_search_by (fun a => compare (key a) k) l) :=
    binary_search_by_spec h
  unfold search_upsert
  cases hfound : binary_search_by (fun a => compare (key a) k) l with
  | ok i =>
    rw [hfound] at hsought
    obtain ⟨a, ha, hk, hbefore⟩ := hsought
    obtain ⟨hi, rfl⟩ := List.getElem?_eq_some_iff.mp ha
    calc l.modify i change
        = l.take i ++ change l[i] :: l.drop (i + 1) := List.modify_eq_take_cons_drop hi
      _ = upsert key k fresh change (l.take i ++ l[i] :: l.drop (i + 1)) :=
          (upsert_found hbefore hk).symm
      _ = upsert key k fresh change l := by
          rw [← List.drop_eq_getElem_cons hi, List.take_append_drop]
  | error i =>
    rw [hfound] at hsought
    obtain ⟨hi, hbefore, hafter⟩ := hsought
    calc l.insertIdx i fresh
        = l.take i ++ fresh :: l.drop i := insertIdx_take_drop hi fresh
      _ = upsert key k fresh change (l.take i ++ l.drop i) := (upsert_missing hbefore hafter).symm
      _ = upsert key k fresh change l := by rw [List.take_append_drop]

end search

end Ecode.ascending
