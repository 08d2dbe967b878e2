-- What is kept of a list whose last elements count: the last few of each class, and then,
-- from the last one on, what fits a budget. Elements, classes and sizes are arbitrary.
import Ecode.Places

namespace Ecode.retaining

open placing

variable {A C : Type} [DecidableEq C]

/-! ## The last of each class -/

/-- No more than the limit of its class allows come after the element. -/
def within_limit (class_of : A → C) (limit : C → Option Nat) (a : A) (later : List A) : Bool :=
  match limit (class_of a) with
  | none => true
  | some n => later.countP (fun b => class_of b = class_of a) < n

/-- The last elements of each class. -/
def latest (class_of : A → C) (limit : C → Option Nat) : List A → List A
  | [] => []
  | a :: later =>
    if within_limit class_of limit a later then a :: latest class_of limit later
    else latest class_of limit later

section

variable {class_of : A → C} {limit : C → Option Nat}

theorem latest_sublist (l : List A) : (latest class_of limit l).Sublist l := by
  induction l with
  | nil => exact .slnil
  | cons a l ih =>
    unfold latest
    split
    · exact ih.cons_cons a
    · exact ih.cons a

/-- All elements of a class without a limit are kept. -/
theorem filter_latest_of_none {c : C} (h : limit c = none) (l : List A) :
    (latest class_of limit l).filter (fun a => class_of a = c) =
      l.filter (fun a => class_of a = c) := by
  induction l with
  | nil => rfl
  | cons a l ih =>
    unfold latest
    by_cases ha : class_of a = c
    · have hstays : within_limit class_of limit a l = true := by
        unfold within_limit
        rw [ha, h]
      rw [if_pos hstays]
      simp [ha, ih]
    · split
      · simp [ha, ih]
      · simp [ha, ih]

/-- Of a class with a limit the last ones are kept. -/
theorem filter_latest_of_some {c : C} {n : Nat} (h : limit c = some n) (l : List A) :
    (latest class_of limit l).filter (fun a => class_of a = c) =
      (l.filter (fun a => class_of a = c)).drop
        ((l.filter (fun a => class_of a = c)).length - n) := by
  induction l with
  | nil => simp [latest]
  | cons a l ih =>
    unfold latest
    by_cases ha : class_of a = c
    · have hstays : within_limit class_of limit a l =
          decide ((l.filter (fun a => class_of a = c)).length < n) := by
        unfold within_limit
        rw [ha, h, List.countP_eq_length_filter]
      have hcons (l : List A) : (a :: l).filter (fun a => class_of a = c) =
          a :: l.filter (fun a => class_of a = c) := List.filter_cons_of_pos (decide_eq_true ha)
      rw [hstays, hcons]
      by_cases hlt : (l.filter (fun a => class_of a = c)).length < n
      · rw [if_pos (decide_eq_true hlt), hcons, ih,
          List.length_cons, Nat.sub_eq_zero_of_le (by omega), Nat.sub_eq_zero_of_le (by omega)]
        rfl
      · rw [if_neg (by simpa using hlt), ih, List.length_cons, Nat.succ_sub (Nat.not_lt.mp hlt)]
        rfl
    · rw [List.filter_cons_of_neg (by simpa using ha), ← ih]
      split
      · rw [List.filter_cons_of_neg (by simpa using ha)]
      · rfl

theorem latest_map {B : Type} (f : B → A) (l : List B) :
    latest class_of limit (l.map f) = (latest (class_of ∘ f) limit l).map f := by
  induction l with
  | nil => rfl
  | cons b l ih =>
    have hwithin : within_limit class_of limit (f b) (l.map f) =
        within_limit (class_of ∘ f) limit b l := by
      unfold within_limit
      simp [List.countP_map, Function.comp_def]
    rw [List.map_cons, latest, latest, hwithin, ih]
    split
    · rfl
    · rfl

/-- The parts of all classes together are the list. -/
theorem flatMap_filter_perm {cs : List C} (hnodup : cs.Nodup) {l : List A}
    (h : ∀ a ∈ l, class_of a ∈ cs) :
    (cs.flatMap fun c => l.filter (fun a => class_of a = c)).Perm l := by
  induction cs generalizing l with
  | nil =>
    rcases l with _ | ⟨a, l⟩
    · exact .nil
    · exact absurd (h a List.mem_cons_self) List.not_mem_nil
  | cons c cs ih =>
    obtain ⟨hc, hnodup⟩ := List.nodup_cons.mp hnodup
    have hothers : (cs.flatMap fun d => l.filter (fun a => class_of a = d)) =
        cs.flatMap fun d =>
          (l.filter (fun a => !decide (class_of a = c))).filter (fun a => class_of a = d) := by
      refine List.flatMap_congr fun d hd => ?_
      rw [List.filter_filter]
      refine List.filter_congr fun a _ => ?_
      by_cases had : class_of a = d
      · have hne : d ≠ c := fun hdc => hc (hdc ▸ hd)
        simp [had, hne]
      · simp [had]
    rw [List.flatMap_cons, hothers]
    refine ((ih hnodup fun a ha => ?_).append_left _).trans (List.filter_append_perm _ l)
    obtain ⟨hmem, hne⟩ := List.mem_filter.mp ha
    rcases List.mem_cons.mp (h a hmem) with heq | hmem
    · simp [heq] at hne
    · exact hmem

/-- A list whose keys go up is what sorting makes of its elements. -/
theorem insertionSort_of_perm {key : A → Nat} {l l' : List A} (hperm : l'.Perm l)
    (h : l.Pairwise (fun a b => key a < key b)) :
    l'.insertionSort (fun a b => key a ≤ key b) = l := by
  have htotal : Std.Total (fun a b : A => key a ≤ key b) := ⟨fun a b => le_total (key a) (key b)⟩
  have htrans : IsTrans A (fun a b => key a ≤ key b) := ⟨fun _ _ _ hab hbc => le_trans hab hbc⟩
  have hsorted : (l.map key).Nodup := by
    rw [List.nodup_iff_pairwise_ne, List.pairwise_map]
    exact h.imp fun hlt => Nat.ne_of_lt hlt
  have hperm' := (List.perm_insertionSort (fun a b => key a ≤ key b) l').trans hperm
  have hone (a b : A) (ha : a ∈ l'.insertionSort (fun a b => key a ≤ key b)) (hb : b ∈ l)
      (hab : key a ≤ key b) (hba : key b ≤ key a) : a = b :=
    List.inj_on_of_nodup_map hsorted (hperm'.subset ha) hb (Nat.le_antisymm hab hba)
  exact hperm'.eq_of_pairwise hone (List.pairwise_insertionSort _ _) (h.imp Nat.le_of_lt)

end

/-! ## What fits -/

variable (size : A → Nat) (max : Nat)

def total (l : List A) : Nat := (l.map size).sum

/-- From the last element on, each that fits beside those kept after it. -/
def fitting : List A → List A
  | [] => []
  | a :: later =>
    if total size (fitting later) + size a ≤ max then a :: fitting later else fitting later

/-- There is room for the element at a place beside those kept after it. -/
def HasRoom (l : List A) (i : Nat) : Prop :=
  ∃ a, l[i]? = some a ∧ total size (fitting size max (l.drop (i + 1))) + size a ≤ max

variable {size max}

theorem total_append (l l' : List A) : total size (l ++ l') = total size l + total size l' := by
  unfold total
  rw [List.map_append, List.sum_append]

theorem fitting_sublist (l : List A) : (fitting size max l).Sublist l := by
  induction l with
  | nil => exact .slnil
  | cons a l ih =>
    unfold fitting
    split
    · exact ih.cons_cons a
    · exact ih.cons a

/-- What fits is at most `max` in size. -/
theorem total_fitting_le (l : List A) : total size (fitting size max l) ≤ max := by
  induction l with
  | nil => exact Nat.zero_le max
  | cons a l ih =>
    unfold fitting
    split
    · next hroom =>
      rw [total, List.map_cons, List.sum_cons, Nat.add_comm]
      exact hroom
    · exact ih

theorem total_congr {size' : A → Nat} {l : List A} (h : ∀ a ∈ l, size a = size' a) :
    total size l = total size' l :=
  congrArg List.sum (List.map_congr_left h)

theorem total_perm {l l' : List A} (h : l.Perm l') : total size l = total size l' :=
  (h.map size).sum_eq

theorem total_map {B : Type} (f : B → A) (l : List B) :
    total size (l.map f) = total (size ∘ f) l := by
  unfold total
  rw [List.map_map]

theorem fitting_map {B : Type} (f : B → A) (l : List B) :
    fitting size max (l.map f) = (fitting (size ∘ f) max l).map f := by
  induction l with
  | nil => rfl
  | cons b l ih =>
    rw [List.map_cons, fitting, fitting, ih, total_map]
    simp only [Function.comp_apply]
    split
    · rfl
    · rfl

/-- All is kept when all fits. -/
theorem fitting_eq_self {l : List A} (h : total size l ≤ max) : fitting size max l = l := by
  induction l with
  | nil => rfl
  | cons a l ih =>
    have hcons : total size (a :: l) = size a + total size l := by simp [total]
    rw [hcons] at h
    unfold fitting
    rw [ih (by omega), if_pos (by omega)]

@[simp] theorem hasRoom_cons_succ (a : A) (l : List A) (i : Nat) :
    HasRoom size max (a :: l) (i + 1) ↔ HasRoom size max l i := by
  unfold HasRoom
  rw [List.getElem?_cons_succ, List.drop_succ_cons]

@[simp] theorem hasRoom_cons_zero (a : A) (l : List A) :
    HasRoom size max (a :: l) 0 ↔ total size (fitting size max l) + size a ≤ max := by
  unfold HasRoom
  simp

/-- What fits is kept place by place. -/
theorem fitting_eq_keep_at (l : List A) : fitting size max l =
    keep_at (fun i => match l[i]? with
      | some a => total size (fitting size max (l.drop (i + 1))) + size a ≤ max
      | none => false) l := by
  induction l with
  | nil => rfl
  | cons a l ih =>
    rw [fitting, keep_at_cons]
    simp only [List.getElem?_cons_zero, List.getElem?_cons_succ, List.drop_succ_cons,
      List.drop_zero, decide_eq_true_eq]
    rw [← ih]
    split <;> rfl

/-- What fits of the last of each class is kept place by place. -/
theorem fitting_latest_eq_keep_at (class_of : A → C) (limit : C → Option Nat) (l : List A) :
    fitting size max (latest class_of limit l) =
      keep_at (fun i => match l[i]? with
        | some a => within_limit class_of limit a (l.drop (i + 1)) &&
          total size (fitting size max (latest class_of limit (l.drop (i + 1)))) + size a ≤ max
        | none => false) l := by
  induction l with
  | nil => rfl
  | cons a l ih =>
    rw [latest, keep_at_cons]
    simp only [List.getElem?_cons_zero, List.getElem?_cons_succ, List.drop_succ_cons,
      List.drop_zero, Bool.and_eq_true, decide_eq_true_eq]
    rw [← ih]
    by_cases hwithin : within_limit class_of limit a l = true
    · rw [if_pos hwithin, fitting]
      simp only [hwithin, true_and]
      split <;> rfl
    · rw [if_neg hwithin, if_neg fun h => hwithin h.1]
      rfl

/-- The elements that meet a predicate are all kept just where there is room for each. -/
theorem filter_fitting_iff (size : A → Nat) (max : Nat) (p : A → Bool) (l : List A) :
    (fitting size max l).filter p = l.filter p ↔
      ∀ i a, l[i]? = some a → p a = true → HasRoom size max l i := by
  rw [fitting_eq_keep_at, filter_keep_at_iff]
  apply forall_congr'
  intro i
  apply forall_congr'
  intro a
  refine imp_congr_right fun hi => imp_congr_right fun _ => ?_
  simp [HasRoom, hi]

/-- The elements that meet a predicate are all kept where the limit of the class lets each through
and there is room for it beside what is kept after it. -/
theorem filter_fitting_latest_iff (class_of : A → C) (limit : C → Option Nat) (size : A → Nat)
    (max : Nat) (p : A → Bool) (l : List A) :
    (fitting size max (latest class_of limit l)).filter p = l.filter p ↔
      ∀ i a, l[i]? = some a → p a = true →
        within_limit class_of limit a (l.drop (i + 1)) = true ∧
          total size (fitting size max (latest class_of limit (l.drop (i + 1)))) + size a ≤ max := by
  rw [fitting_latest_eq_keep_at, filter_keep_at_iff]
  apply forall_congr'
  intro i
  apply forall_congr'
  intro a
  refine imp_congr_right fun hi => imp_congr_right fun _ => ?_
  simp [hi]

/-- The kept elements are those at the places with room, in their order. -/
theorem exists_places (size : A → Nat) (max : Nat) (l : List A) : ∃ f : Nat → Nat, StrictMono f ∧
    (∀ i a, (fitting size max l)[i]? = some a → l[f i]? = some a ∧ HasRoom size max l (f i)) ∧
    ∀ p, HasRoom size max l p → ∃ i, f i = p ∧ (fitting size max l)[i]? = l[p]? := by
  induction l with
  | nil =>
    refine ⟨id, strictMono_id, fun i a h => by simp [fitting] at h, ?_⟩
    rintro p ⟨a, ha, -⟩
    simp at ha
  | cons a l ih =>
    obtain ⟨f, hmono, hkept, hroom⟩ := ih
    unfold fitting
    split
    · next hfits =>
      refine ⟨fun i => match i with | 0 => 0 | i + 1 => f i + 1, ?_, ?_, ?_⟩
      · refine strictMono_nat_of_lt_succ fun i => ?_
        rcases i with _ | i
        · exact Nat.succ_pos _
        · exact Nat.succ_lt_succ (hmono (Nat.lt_succ_self i))
      · rintro (_ | i) b hb
        · exact ⟨hb, (hasRoom_cons_zero a l).mpr hfits⟩
        · obtain ⟨hget, hroom⟩ := hkept i b hb
          exact ⟨hget, (hasRoom_cons_succ a l _).mpr hroom⟩
      · rintro (_ | p) hp
        · exact ⟨0, rfl, rfl⟩
        · obtain ⟨i, hi, hget⟩ := hroom p ((hasRoom_cons_succ a l p).mp hp)
          exact ⟨i + 1, congrArg (· + 1) hi, hget⟩
    · next hfits =>
      refine ⟨fun i => f i + 1, fun i j hij => Nat.succ_lt_succ (hmono hij), ?_, ?_⟩
      · intro i b hb
        obtain ⟨hget, hroom⟩ := hkept i b hb
        exact ⟨hget, (hasRoom_cons_succ a l _).mpr hroom⟩
      · rintro (_ | p) hp
        · exact absurd ((hasRoom_cons_zero a l).mp hp) hfits
        · obtain ⟨i, hi, hget⟩ := hroom p ((hasRoom_cons_succ a l p).mp hp)
          exact ⟨i, congrArg (· + 1) hi, hget⟩

/-- Each element at a place that meets `p` has a partner that stands as `stands` says. -/
def Partnered (stands_at : Nat → A → Prop) (stands : Nat → Nat → Prop) (p : A → Prop)
    (partner : A → A → Prop) : Prop :=
  ∀ i a, stands_at i a → p a → ∃ j b, stands i j ∧ stands_at j b ∧ partner a b

/-- The kept elements have partners among themselves just where the elements with room have. -/
theorem partnered_fitting_iff (l : List A) (stands : Nat → Nat → Prop)
    (hstands : ∀ f : Nat → Nat, StrictMono f → ∀ i j, stands (f i) (f j) ↔ stands i j)
    (p : A → Prop) (partner : A → A → Prop) :
    Partnered (fun i a => (fitting size max l)[i]? = some a) stands p partner ↔
      Partnered (fun i a => l[i]? = some a ∧ HasRoom size max l i) stands p partner := by
  obtain ⟨f, hmono, hkept, hroom⟩ := exists_places size max l
  constructor
  · rintro h i a ⟨hi, hfits⟩ hp
    obtain ⟨i, rfl, hget⟩ := hroom i hfits
    obtain ⟨j, b, hij, hj, hpartner⟩ := h i a (hget.trans hi) hp
    exact ⟨f j, b, (hstands f hmono i j).mpr hij, hkept j b hj, hpartner⟩
  · intro h i a hi hp
    obtain ⟨j, b, hij, ⟨hj, hfits⟩, hpartner⟩ := h (f i) a (hkept i a hi) hp
    obtain ⟨j, rfl, hget⟩ := hroom j hfits
    exact ⟨j, b, (hstands f hmono i j).mp hij, hget.trans hj, hpartner⟩

/-! ## The loop from the last element on -/

/-- The same loop over the list from its last element: the sizes of what is kept and the kept
elements, the last one first. -/
def take_in (size : A → Nat) (max : Nat) : Nat × List A → A → Nat × List A
  | (cumulative, kept), a =>
    if cumulative + size a ≤ max then (cumulative + size a, kept ++ [a]) else (cumulative, kept)

theorem foldl_take_in (l : List A) :
    l.reverse.foldl (take_in size max) (0, []) =
      (total size (fitting size max l), (fitting size max l).reverse) := by
  induction l with
  | nil => rfl
  | cons a l ih =>
    rw [List.reverse_cons, List.foldl_append, ih, List.foldl_cons, List.foldl_nil, take_in, fitting]
    split
    · simp [total, Nat.add_comm]
    · rfl

end Ecode.retaining
