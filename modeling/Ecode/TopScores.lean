-- The best of many items in bounded room: a heap that gives up its least item for one with a higher
-- score, and what it keeps of all items it was offered. Items and scores are arbitrary.
import Mathlib

namespace Ecode.top_scores

section heap

variable {α ν : Type} [LinearOrder α] [LinearOrder ν] (score : α → ν)

/-- `BinaryHeap::peek` of a min-heap. -/
def peek (heap : List α) : Option α := heap.argmin id

/-- Room is left for `max` items. Of the least items by score, the least in the order goes first. -/
def offer (max : Nat) (heap : List α) (a : α) : List α :=
  if heap.length < max then a :: heap
  else match peek heap with
    | some least => if score least < score a then a :: heap.erase least else heap
    | none => heap

end heap

/-! ## The best of all -/

section best

variable {α ν : Type} [LinearOrder ν] (score : α → ν)

/-- The kept items are as many of all items as there is room for, and no other item has a higher
score than one of them. -/
structure Best (max : Nat) (all kept : Multiset α) : Prop where
  room : kept.card ≤ max
  others : ∃ rest, all = kept + rest ∧ (rest ≠ 0 → kept.card = max) ∧
    ∀ a ∈ kept, ∀ b ∈ rest, score b ≤ score a

variable {score} {max : Nat} {all kept : Multiset α}

theorem best_zero : Best score max 0 0 :=
  ⟨Nat.zero_le max, 0, rfl, fun h => absurd rfl h, by simp⟩

theorem Best.self (hroom : kept.card ≤ max) : Best score max kept kept :=
  ⟨hroom, 0, (add_zero kept).symm, fun h => absurd rfl h, by simp⟩

theorem Best.card (h : Best score max all kept) : kept.card = min max all.card := by
  obtain ⟨rest, rfl, hfull, -⟩ := h.others
  rw [Multiset.card_add]
  by_cases hrest : rest = 0
  · rw [hrest, Multiset.card_zero, Nat.add_zero, Nat.min_eq_right h.room]
  · rw [hfull hrest, Nat.min_eq_left (Nat.le_add_right max _)]

theorem Best.le (h : Best score max all kept) : kept ≤ all := by
  obtain ⟨rest, rfl, -, -⟩ := h.others
  exact Multiset.le_add_right kept rest

/-- A full part of all items keeps what it holds above an item out of the best. -/
theorem Best.above {part : Multiset α} (h : Best score max all kept) (hpart : part ≤ all)
    (hfull : part.card = max) {a : α} (ha : a ∈ kept) {n : ν} (hn : ∀ x ∈ part, n ≤ score x) :
    n ≤ score a := by
  obtain ⟨rest, rfl, -, hrest⟩ := h.others
  by_contra hbelow
  rw [not_le] at hbelow
  have hnone : rest.filter (fun x => score a < score x) = 0 :=
    Multiset.filter_eq_nil.mpr fun x hx => not_lt.mpr (hrest a ha x hx)
  have hpart_above : part.filter (fun x => score a < score x) = part :=
    Multiset.filter_eq_self.mpr fun x hx => hbelow.trans_le (hn x hx)
  have hle : part ≤ kept.filter fun x => score a < score x := by
    have hfiltered := Multiset.filter_le_filter (fun x => score a < score x) hpart
    rwa [hpart_above, Multiset.filter_add, hnone, add_zero] at hfiltered
  have hfewer : kept.filter (fun x => score a < score x) < kept := by
    refine lt_of_le_of_ne (Multiset.filter_le _ _) fun heq => ?_
    exact lt_irrefl _ (Multiset.filter_eq_self.mp heq a ha)
  have hcard := (Multiset.card_le_card hle).trans_lt (Multiset.card_lt_card hfewer)
  exact absurd (hcard.trans_le h.room) (by rw [hfull]; exact lt_irrefl max)

/-- The best of the best of two parts are the best of both. -/
theorem Best.merge {all₁ all₂ kept₁ kept₂ : Multiset α} (h₁ : Best score max all₁ kept₁)
    (h₂ : Best score max all₂ kept₂) (h : Best score max (kept₁ + kept₂) kept) :
    Best score max (all₁ + all₂) kept := by
  have hcard := h.card
  rw [Multiset.card_add] at hcard
  have habove₁ := fun hfull a ha n => h.above (Multiset.le_add_right kept₁ kept₂) hfull
    (a := a) ha (n := n)
  have habove₂ := fun hfull a ha n => h.above (Multiset.le_add_left kept₂ kept₁) hfull
    (a := a) ha (n := n)
  obtain ⟨rest, hrest, hfull, hbelow⟩ := h.others
  obtain ⟨rest₁, rfl, hfull₁, hbelow₁⟩ := h₁.others
  obtain ⟨rest₂, rfl, hfull₂, hbelow₂⟩ := h₂.others
  refine ⟨h.room, rest + (rest₁ + rest₂), ?_, fun hsome => ?_, fun a ha b hb => ?_⟩
  · rw [add_add_add_comm, hrest, add_assoc]
  · by_cases hone : rest₁ = 0
    · by_cases htwo : rest₂ = 0
      · rw [hone, htwo, add_zero, add_zero] at hsome
        exact hfull hsome
      · have htwo := hfull₂ htwo
        omega
    · have hone := hfull₁ hone
      omega
  · have hmem_ne : ∀ {s : Multiset α}, b ∈ s → s ≠ 0 := by
      rintro _ hb rfl
      exact Multiset.notMem_zero b hb
    rcases Multiset.mem_add.mp hb with hb | hb
    · exact hbelow a ha b hb
    · rcases Multiset.mem_add.mp hb with hb | hb
      · exact habove₁ (hfull₁ (hmem_ne hb)) a ha _ fun x hx => hbelow₁ x hx b hb
      · exact habove₂ (hfull₂ (hmem_ne hb)) a ha _ fun x hx => hbelow₂ x hx b hb

/-- In the order of the scores, the best items have the highest scores of all. -/
theorem Best.scores {items best : List α} (h : Best score max items best)
    (hsorted : best.Pairwise fun a b => score b ≤ score a) :
    best.map score = ((items.map score).insertionSort (· ≥ ·)).take max := by
  obtain ⟨rest, hall, hfull, hbelow⟩ := h.others
  obtain ⟨rest, rfl⟩ : ∃ others : List α, (others : Multiset α) = rest := Quot.exists_rep rest
  have hperm : items.Perm (best ++ rest) := by simpa using hall
  let worse := (rest.map score).insertionSort (· ≥ ·)
  have hworse : worse.Perm (rest.map score) := List.perm_insertionSort _ _
  have hsplit : (items.map score).insertionSort (· ≥ ·) = best.map score ++ worse := by
    refine List.Perm.eq_of_pairwise (fun a b _ _ hab hba => le_antisymm hba hab)
      (List.pairwise_insertionSort _ _) ?_ ?_
    · rw [List.pairwise_append, List.pairwise_map]
      refine ⟨hsorted, List.pairwise_insertionSort _ _, fun a ha b hb => ?_⟩
      obtain ⟨x, hx, rfl⟩ := List.mem_map.mp ha
      obtain ⟨y, hy, rfl⟩ := List.mem_map.mp (hworse.mem_iff.mp hb)
      exact hbelow x (by simpa using hx) y (by simpa using hy)
    · refine (List.perm_insertionSort _ _).trans ((hperm.map score).trans ?_)
      rw [List.map_append]
      exact hworse.symm.append_left _
  rw [hsplit]
  by_cases hrest : rest = []
  · subst hrest
    have hroom := h.room
    rw [Multiset.coe_card] at hroom
    rw [List.take_of_length_le]
    · simp [worse]
    · simpa [worse] using hroom
  · have hsome : (rest : Multiset α) ≠ 0 := by simpa using hrest
    have hlength : (best.map score).length = max := by simpa using hfull hsome
    rw [← hlength, List.take_left]

end best

/-! ## Offering -/

section offers

variable {α ν : Type} [LinearOrder α] [LinearOrder ν] {score : α → ν} {max : Nat}

theorem peek_spec {heap : List α} {least : α} (h : peek heap = some least) :
    least ∈ heap ∧ ∀ a ∈ heap, least ≤ a :=
  ⟨List.argmin_mem h, fun _ ha => List.le_of_mem_argmin ha h⟩

/-- An offer to the heap makes it the best of one item more. -/
theorem Best.offer (hscore : Monotone score) {all : Multiset α} {heap : List α}
    (h : Best score max all heap) (a : α) : Best score max (a ::ₘ all) (offer score max heap a) := by
  obtain ⟨rest, rfl, hfull, hbelow⟩ := h.others
  have hroom : heap.length ≤ max := by simpa using h.room
  unfold top_scores.offer
  split_ifs with hlt
  · refine ⟨by simpa using hlt, rest, (Multiset.cons_add a heap rest).symm, fun hrest => ?_, ?_⟩
    · have hlength : heap.length = max := by simpa using hfull hrest
      exact absurd hlength hlt.ne
    · have hnone : rest = 0 := by
        by_contra hrest
        have hlength : heap.length = max := by simpa using hfull hrest
        exact hlt.ne hlength
      simp [hnone]
  · have hlength : heap.length = max := le_antisymm hroom (not_lt.mp hlt)
    cases hpeek : peek heap with
    | none =>
      have hnil : heap = [] := List.argmin_eq_none.mp hpeek
      subst hnil
      exact ⟨by simp, a ::ₘ rest, by simp, fun _ => by simpa using hlength, by simp⟩
    | some least =>
      obtain ⟨hmem, hleast⟩ := peek_spec hpeek
      dsimp only
      split_ifs with habove
      · have hback : (a :: heap.erase least).length = max := by
          rw [List.length_cons, List.length_erase_of_mem hmem, ← hlength]
          exact Nat.sub_add_cancel (List.length_pos_of_mem hmem)
        refine ⟨by simpa using hback.le, least ::ₘ rest, ?_, fun _ => by simpa using hback, ?_⟩
        · have hheap : (heap : Multiset α) = least ::ₘ (heap.erase least : List α) := by
            simpa using List.perm_cons_erase hmem
          rw [hheap, ← Multiset.cons_coe, Multiset.cons_add, Multiset.cons_add, Multiset.add_cons,
            Multiset.cons_swap]
        · have hfrom : ∀ x ∈ a :: heap.erase least, score least ≤ score x := by
            intro x hx
            rcases List.mem_cons.mp hx with rfl | hx
            · exact habove.le
            · exact hscore (hleast x (List.mem_of_mem_erase hx))
          intro x hx b hb
          rcases Multiset.mem_cons.mp hb with rfl | hb
          · exact hfrom x (by simpa using hx)
          · exact (hbelow least (by simpa using hmem) b hb).trans (hfrom x (by simpa using hx))
      · refine ⟨by simpa using hroom, a ::ₘ rest, by simp, fun _ => by simpa using hlength, ?_⟩
        intro x hx b hb
        have hx' : score least ≤ score x := hscore (hleast x (by simpa using hx))
        rcases Multiset.mem_cons.mp hb with rfl | hb
        · exact (not_lt.mp habove).trans hx'
        · exact hbelow x hx b hb

theorem Best.offers (hscore : Monotone score) {all : Multiset α} {heap : List α}
    (h : Best score max all heap) (more : List α) :
    Best score max (all + more) (more.foldl (top_scores.offer score max) heap : List α) := by
  induction more generalizing heap all with
  | nil => simpa using h
  | cons a more ih =>
    have hall : all + (a :: more : List α) = a ::ₘ all + more := by
      rw [← Multiset.cons_coe, Multiset.add_cons, Multiset.cons_add]
    rw [hall]
    exact ih (h.offer hscore a)

/-- Offering the best of other items makes the heap the best of them all. -/
theorem Best.offers_best (hscore : Monotone score) {all others : Multiset α}
    {heap kept more : List α} (h : Best score max all heap) (h' : Best score max others kept)
    (hmore : more.Perm kept) :
    Best score max (all + others) (more.foldl (top_scores.offer score max) heap : List α) := by
  refine h.merge h' ?_
  rw [← Multiset.coe_eq_coe.mpr hmore]
  exact (Best.self h.room).offers hscore more

end offers

end Ecode.top_scores
