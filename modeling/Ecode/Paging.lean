-- Listing by pages: each call answers the first items that its cursor admits, and
-- its last item gives the cursor of the next call. When such a listing has every
-- item once is decided at the ends of the pages.
import Mathlib

namespace Ecode.paging

variable {α K : Type} (key : α → K) (admits : K → α → Bool) (size : Nat) (items : List α)

/-- The items that a call with a cursor may answer. The first call has none. -/
def admitted : Option K → List α
  | none => items
  | some c => items.filter (admits c)

/-- The answer to a call. -/
def page (cursor : Option K) : List α := (admitted admits items cursor).take size

/-- What the calls answer from a cursor on, until one answers no item. -/
inductive Listed : Option K → List α → Prop
  | done {cursor : Option K} : page admits size items cursor = [] → Listed cursor []
  | more {cursor : Option K} {last : α} {rest : List α} :
      (page admits size items cursor).getLast? = some last → Listed (some (key last)) rest →
      Listed cursor (page admits size items cursor ++ rest)

/-- A number of items that ends a page. -/
def PageEnd (n : Nat) : Prop :=
  0 < n ∧ n ≤ items.length ∧ (size ∣ n ∨ n = items.length)

/-- At the end of each page the cursor admits just the items that are left. -/
def Meets : Prop :=
  ∀ n, PageEnd size items n → ∀ x, items[n - 1]? = some x →
    ∀ y ∈ items, admits (key x) y = true ↔ y ∈ items.drop n

variable {key admits size items}

/-! ## The rest of a scan -/

/-- A scan that starts where a weaker condition fails leaves less out. -/
theorem dropWhile_subset {P Q : α → Bool} {l : List α} (h : ∀ y, Q y = true → P y = true) :
    l.dropWhile P ⊆ l.dropWhile Q := by
  induction l with
  | nil => simp
  | cons y l ih =>
    by_cases hP : P y = true
    · rw [List.dropWhile_cons_of_pos hP]
      by_cases hQ : Q y = true
      · rw [List.dropWhile_cons_of_pos hQ]
        exact ih
      · rw [List.dropWhile_cons_of_neg hQ]
        exact fun z hz => List.mem_cons_of_mem _ ((List.dropWhile_sublist _).subset hz)
    · have hQ : ¬ Q y = true := fun hQ => hP (h y hQ)
      rw [List.dropWhile_cons_of_neg hP, List.dropWhile_cons_of_neg hQ]
      exact List.Subset.refl _

theorem mem_dropWhile {P : α → Bool} {l : List α} {x : α} (hx : x ∈ l) (hP : P x = false) :
    x ∈ l.dropWhile P := by
  have hsplit : x ∈ l.takeWhile P ++ l.dropWhile P := by rwa [List.takeWhile_append_dropWhile]
  refine (List.mem_append.mp hsplit).resolve_left (fun htake => ?_)
  have hnot := List.mem_takeWhile_imp htake
  simp [hP] at hnot

/-! ## The first item of a page -/

/-- The first item that meets `P` is among the first that meet a weaker `Q`, when any item that
meets `P` is. -/
theorem find_mem_take {P Q : α → Bool} {n : Nat} {l : List α} {x z : α}
    (hPQ : ∀ y, P y = true → Q y = true) (hfind : l.find? P = some x)
    (hz : z ∈ (l.filter Q).take n) (hPz : P z = true) : x ∈ (l.filter Q).take n := by
  induction l generalizing n with
  | nil => simp at hfind
  | cons y l ih =>
    by_cases hP : P y = true
    · rw [List.find?_cons_of_pos hP, Option.some.injEq] at hfind
      subst hfind
      rw [List.filter_cons_of_pos (hPQ y hP)] at hz ⊢
      cases n with
      | zero => simp at hz
      | succ n => simp
    · rw [List.find?_cons_of_neg hP] at hfind
      by_cases hQ : Q y = true
      · rw [List.filter_cons_of_pos hQ] at hz ⊢
        cases n with
        | zero => simp at hz
        | succ n =>
          rw [List.take_succ_cons, List.mem_cons] at hz ⊢
          rcases hz with rfl | hz
          · exact absurd hPz hP
          · exact .inr (ih hfind hz)
      · rw [List.filter_cons_of_neg hQ] at hz ⊢
        exact ih hfind hz

/-- The first item that a cursor admits is on the page, when there is room. -/
theorem find_mem_page {c : K} {x : α} (hsize : 0 < size)
    (hfind : items.find? (admits c) = some x) : x ∈ page admits size items (some c) := by
  have hhead : (items.filter (admits c)).head? = some x := by rwa [List.head?_filter]
  unfold page admitted
  cases hfilter : items.filter (admits c) with
  | nil => simp [hfilter] at hhead
  | cons y l =>
    obtain rfl : y = x := by simpa [hfilter] using hhead
    cases size with
    | zero => omega
    | succ n => simp [hfilter]

/-- The items of a page are admitted. -/
theorem mem_page {c : K} {x : α} (h : x ∈ page admits size items (some c)) :
    x ∈ items ∧ admits c x = true :=
  List.mem_filter.mp (List.mem_of_mem_take h)

theorem admitted_eq_nil {cursor : Option K} (hsize : 0 < size)
    (h : page admits size items cursor = []) : admitted admits items cursor = [] := by
  unfold page at h
  rcases List.take_eq_nil_iff.mp h with h0 | h0
  · omega
  · exact h0

/-! ## A listing that has every item once meets the page ends -/

/-- An item of a listing is admitted by a cursor from which the rest of the listing goes on. -/
theorem Listed.admitted_later {c : K} {out : List α} {y : α}
    (h : Listed key admits size items (some c) out) (hy : y ∈ out) :
    ∃ c' out', Listed key admits size items (some c') out' ∧ out' <:+ out ∧ admits c' y = true := by
  generalize hcursor : some c = cursor at h
  induction h generalizing c with
  | done hpage => simp at hy
  | @more cursor last rest hlast hrest ih =>
    subst hcursor
    rw [List.mem_append] at hy
    rcases hy with hy | hy
    · exact ⟨c, _, .more hlast hrest, List.suffix_rfl, (mem_page hy).2⟩
    · obtain ⟨c', out', hlisted, hsuffix, hadm⟩ := ih hy rfl
      exact ⟨c', out', hlisted, hsuffix.trans (List.suffix_append _ _), hadm⟩

/-- The page after `m` items ends with the item at its end. -/
theorem getLast_page {m n : Nat} {cursor : Option K}
    (hadm : admitted admits items cursor = items.drop m) (hmn : m < n)
    (hn : n = min (m + size) items.length) :
    (page admits size items cursor).getLast? = items[n - 1]? := by
  unfold page
  rw [hadm, List.getLast?_eq_getElem?, List.length_take, List.length_drop, List.getElem?_take,
    List.getElem?_drop]
  have hindex : min size (items.length - m) - 1 < size := by omega
  have hplace : m + (min size (items.length - m) - 1) = n - 1 := by omega
  rw [if_pos hindex, hplace]

/-- What is left after `m` items is the page and what is left after its end. -/
theorem page_append_drop {m n : Nat} {cursor : Option K}
    (hadm : admitted admits items cursor = items.drop m)
    (hn : n = min (m + size) items.length) :
    page admits size items cursor ++ items.drop n = items.drop m := by
  have hdrop : items.drop n = (items.drop m).drop size := by
    rw [List.drop_drop]
    by_cases hle : m + size ≤ items.length
    · rw [hn, min_eq_left hle]
    · rw [List.drop_eq_nil_of_le (by omega), List.drop_eq_nil_of_le (by omega)]
  unfold page
  rw [hadm, hdrop, List.take_append_drop]

/-- A listing of what is left after `m` items goes on, at the end of the page, with what is left
there. -/
theorem Listed.next_end {m n : Nat} {cursor : Option K} {out : List α}
    (hadm : admitted admits items cursor = items.drop m) (hmn : m < n)
    (hn : n = min (m + size) items.length)
    (h : Listed key admits size items cursor out) (hperm : out.Perm (items.drop m)) :
    ∃ x rest, items[n - 1]? = some x ∧ Listed key admits size items (some (key x)) rest ∧
      rest.Perm (items.drop n) := by
  have hlast := getLast_page hadm hmn hn
  rw [← page_append_drop hadm hn] at hperm
  cases h with
  | done hpage =>
    rw [hpage] at hlast
    have hlt : n - 1 < items.length := by omega
    simp [hlt] at hlast
  | @more _ last rest hlast' hrest =>
    exact ⟨last, rest, hlast.symm.trans hlast', hrest, (List.perm_append_left_iff _).mp hperm⟩

theorem filter_eq_drop {P : α → Bool} {n : Nat} (hnodup : items.Nodup)
    (h : ∀ y ∈ items, P y = true ↔ y ∈ items.drop n) : items.filter P = items.drop n := by
  have hsplit : (items.take n ++ items.drop n).Nodup := by rwa [List.take_append_drop]
  have hapart := (List.nodup_append'.mp hsplit).2.2
  have htake : (items.take n).filter P = [] := by
    rw [List.filter_eq_nil_iff]
    intro y hy hP
    exact hapart hy ((h y (List.mem_of_mem_take hy)).mp hP)
  have hdrop : (items.drop n).filter P = items.drop n := by
    rw [List.filter_eq_self]
    intro y hy
    exact (h y (List.mem_of_mem_drop hy)).mpr hy
  calc items.filter P = (items.take n ++ items.drop n).filter P := by rw [List.take_append_drop]
    _ = items.drop n := by rw [List.filter_append, htake, hdrop, List.nil_append]

/-- The page end before a later one. -/
theorem PageEnd.before {n : Nat} (h : PageEnd size items n) (hsize : 0 < size) (hlt : size < n) :
    ∃ m, PageEnd size items m ∧ m < n ∧ n = min (m + size) items.length := by
  obtain ⟨hpos, hle, hdiv⟩ := h
  rcases hdiv with hdiv | rfl
  · refine ⟨n - size, ⟨by omega, by omega, .inl ?_⟩, by omega, by omega⟩
    exact (Nat.dvd_sub hdiv (dvd_refl size))
  · -- the last page may be shorter
    refine ⟨size * ((items.length - 1) / size), ⟨?_, ?_, .inl (dvd_mul_right _ _)⟩, ?_, ?_⟩
    · exact Nat.mul_pos hsize (Nat.div_pos (by omega) hsize)
    · have := Nat.mul_div_le (items.length - 1) size
      omega
    · have := Nat.mul_div_le (items.length - 1) size
      omega
    · have := Nat.lt_mul_div_succ (items.length - 1) hsize
      have hmul : size * ((items.length - 1) / size + 1) =
          size * ((items.length - 1) / size) + size := by ring
      omega

section once

variable [LinearOrder K] (hsize : 0 < size)
  (hmono : ∀ c c', c ≤ c' → ∀ x, admits c x = true → admits c' x = true)
  (holder : ∀ c, ∀ x ∈ items, key x < c → admits c x = true)

include hsize hmono holder in
/-- From a cursor that is not older on, a listing has the first item that the older one admits. -/
theorem Listed.returns {a c : K} {out : List α} {x : α}
    (hfind : items.find? (admits a) = some x) (hac : a ≤ c)
    (h : Listed key admits size items (some c) out) : x ∈ out := by
  generalize hcursor : some c = cursor at h
  induction h generalizing c with
  | @done cursor hpage =>
    subst hcursor
    -- the cursor admits what the older one admits, so its page is not empty
    have hx := hmono a c hac x (List.find?_some hfind)
    have hnil : items.filter (admits c) = [] := admitted_eq_nil hsize hpage
    have hmem : x ∈ items.filter (admits c) :=
      List.mem_filter.mpr ⟨List.mem_of_find?_eq_some hfind, hx⟩
    simp [hnil] at hmem
  | @more cursor last rest hlast _ ih =>
    subst hcursor
    rw [List.mem_append]
    have hmem : last ∈ page admits size items (some c) := List.mem_of_getLast? hlast
    by_cases hadm : admits a last = true
    · exact .inl (find_mem_take (hmono a c hac) hfind hmem hadm)
    · -- what the older cursor leaves out is not older than it
      have hkey : a ≤ key last := by
        by_contra hlt
        exact hadm (holder a last (mem_page hmem).1 (not_le.mp hlt))
      exact .inr (ih hkey rfl)

include hsize hmono holder in
/-- A cursor from which a listing has each of the items that are left once admits just these. -/
theorem Listed.admits_left {n : Nat} {c : K} {rest : List α} (hnodup : items.Nodup)
    (h : Listed key admits size items (some c) rest) (hperm : rest.Perm (items.drop n)) {y : α}
    (hy : y ∈ items) : admits c y = true ↔ y ∈ items.drop n := by
  have hsplit : (items.take n ++ items.drop n).Nodup := by rwa [List.take_append_drop]
  have hapart := List.nodup_append'.mp hsplit
  constructor
  · intro hadm
    by_contra hleft
    have hy' : y ∈ items.take n ++ items.drop n := by rwa [List.take_append_drop]
    have htake : y ∈ items.take n := (List.mem_append.mp hy').resolve_right hleft
    -- the first admitted item was listed before and would come again
    obtain ⟨x, hfind⟩ := Option.isSome_iff_exists.mp
      (List.find?_isSome.mpr ⟨y, htake, hadm⟩ : ((items.take n).find? (admits c)).isSome)
    have hfirst : items.find? (admits c) = some x := by
      rw [← List.take_append_drop n items, List.find?_append, hfind, Option.some_or]
    have hrest : x ∈ rest := Listed.returns hsize hmono holder hfirst le_rfl h
    exact hapart.2.2 (List.mem_of_find?_eq_some hfind) (hperm.subset hrest)
  · intro hleft
    by_contra hadm
    have hyrest : y ∈ rest := hperm.symm.subset hleft
    have hrestnodup : rest.Nodup := hperm.nodup_iff.mpr hapart.2.1
    cases h with
    | done => simp at hyrest
    | @more _ last out hlast hout =>
      have hmem : last ∈ page admits size items (some c) := List.mem_of_getLast? hlast
      have hypage : y ∉ page admits size items (some c) := fun h => hadm (mem_page h).2
      have hyout : y ∈ out := (List.mem_append.mp hyrest).resolve_left hypage
      obtain ⟨x, hfind⟩ := Option.isSome_iff_exists.mp
        (List.find?_isSome.mpr ⟨last, (mem_page hmem)⟩ : (items.find? (admits c)).isSome)
      -- the cursor that admits the item is not older, and brings the first item of the page again
      obtain ⟨c', out', hlater, hsuffix, hadm'⟩ := hout.admitted_later hyout
      have hle : c ≤ c' := by
        by_contra hlt
        exact hadm (hmono c' c (le_of_lt (not_le.mp hlt)) y hadm')
      have hagain : x ∈ out := hsuffix.subset (Listed.returns hsize hmono holder hfind hle hlater)
      have hdisjoint := (List.nodup_append'.mp hrestnodup).2.2
      exact hdisjoint (find_mem_page hsize hfind) hagain

include hsize hmono holder in
/-- A listing with every item once comes to every page end with what is left there. -/
theorem Listed.at_end {out : List α} (hnodup : items.Nodup)
    (h : Listed key admits size items none out) (hperm : out.Perm items) {n : Nat}
    (hend : PageEnd size items n) :
    ∃ x rest, items[n - 1]? = some x ∧ Listed key admits size items (some (key x)) rest ∧
      rest.Perm (items.drop n) := by
  induction n using Nat.strong_induction_on with
  | _ n ih =>
    by_cases hfirst : n ≤ size
    · -- the first page
      have hn : n = min (0 + size) items.length := by
        obtain ⟨hpos, hle, hdiv | hlen⟩ := hend
        · have := Nat.le_of_dvd hpos hdiv
          omega
        · omega
      have hadm : admitted admits items none = items.drop 0 := by simp [admitted]
      exact Listed.next_end hadm hend.1 hn h (by simpa using hperm)
    · obtain ⟨m, hm, hmn, hn⟩ := hend.before hsize (by omega)
      obtain ⟨x, rest, hx, hrest, hleft⟩ := ih m hmn hm
      have hadm : admitted admits items (some (key x)) = items.drop m :=
        filter_eq_drop hnodup (fun y hy =>
          hrest.admits_left hsize hmono holder hnodup hleft hy)
      exact Listed.next_end hadm hmn hn hrest hleft

include hsize hmono holder in
/-- A listing with every item once meets every page end. -/
theorem Listed.meets {out : List α} (hnodup : items.Nodup)
    (h : Listed key admits size items none out) (hperm : out.Perm items) :
    Meets key admits size items := by
  intro n hend x hx y hy
  obtain ⟨x', rest, hx', hrest, hleft⟩ := Listed.at_end hsize hmono holder hnodup h hperm hend
  obtain rfl : x' = x := by simpa [hx'] using hx
  exact hrest.admits_left hsize hmono holder hnodup hleft hy

end once

/-! ## A listing that meets the page ends has every item once -/

/-- The calls after `m` items answer the page and then what the calls after its end answer. -/
theorem Listed.of_next_end {m n : Nat} {cursor : Option K} {x : α}
    (hadm : admitted admits items cursor = items.drop m) (hmn : m < n)
    (hn : n = min (m + size) items.length) (hx : items[n - 1]? = some x)
    (h : Listed key admits size items (some (key x)) (items.drop n)) :
    Listed key admits size items cursor (items.drop m) := by
  rw [← page_append_drop hadm hn]
  exact .more ((getLast_page hadm hmn hn).trans hx) h

/-- From a page end on, the calls answer what is left. -/
theorem Meets.listed_from {n : Nat} {x : α} (hmeets : Meets key admits size items)
    (hsize : 0 < size) (hnodup : items.Nodup) (hend : PageEnd size items n)
    (hx : items[n - 1]? = some x) :
    Listed key admits size items (some (key x)) (items.drop n) := by
  induction hleft : items.length - n using Nat.strong_induction_on generalizing n x with
  | _ left ih =>
    have hadm : admitted admits items (some (key x)) = items.drop n :=
      filter_eq_drop hnodup (hmeets n hend x hx)
    by_cases hall : n = items.length
    · subst hall
      rw [List.drop_length] at hadm ⊢
      exact .done (by simp [page, hadm])
    · obtain ⟨hpos, hle, hdiv⟩ := hend
      have hend' : PageEnd size items (min (n + size) items.length) := by
        refine ⟨by omega, by omega, ?_⟩
        rcases Nat.le_total (n + size) items.length with h | h
        · rw [min_eq_left h]
          exact .inl (Nat.dvd_add (hdiv.resolve_right hall) (dvd_refl size))
        · exact .inr (min_eq_right h)
      have hlt : min (n + size) items.length - 1 < items.length := by omega
      have hx' := List.getElem?_eq_getElem hlt
      refine Listed.of_next_end hadm (by omega) rfl hx' ?_
      exact ih _ (by omega) hend' hx' rfl

/-- Where the page ends meet, the calls answer the items in order. -/
theorem Meets.listed (hmeets : Meets key admits size items) (hsize : 0 < size)
    (hnodup : items.Nodup) : Listed key admits size items none items := by
  cases hlen : items.length with
  | zero =>
    have hnil := List.length_eq_zero_iff.mp hlen
    subst hnil
    exact .done (by simp [page, admitted])
  | succ len =>
    have hend : PageEnd size items (min (0 + size) items.length) := by
      refine ⟨by omega, by omega, ?_⟩
      rcases Nat.le_total (0 + size) items.length with h | h
      · rw [min_eq_left h, Nat.zero_add]
        exact .inl (dvd_refl size)
      · exact .inr (min_eq_right h)
    have hlt : min (0 + size) items.length - 1 < items.length := by omega
    have hx := List.getElem?_eq_getElem hlt
    have hadm : admitted admits items none = items.drop 0 := by simp [admitted]
    exact Listed.of_next_end hadm (by omega) rfl hx (hmeets.listed_from hsize hnodup hend hx)

/-- The calls answer every item once just where the page ends meet. -/
theorem listed_once_iff_meets [LinearOrder K] (hsize : 0 < size) (hnodup : items.Nodup)
    (hmono : ∀ c c', c ≤ c' → ∀ x, admits c x = true → admits c' x = true)
    (holder : ∀ c, ∀ x ∈ items, key x < c → admits c x = true) :
    (∃ out, Listed key admits size items none out ∧ out.Perm items) ↔
      Meets key admits size items := by
  constructor
  · rintro ⟨out, hlisted, hperm⟩
    exact hlisted.meets hsize hmono holder hnodup hperm
  · intro hmeets
    exact ⟨items, hmeets.listed hsize hnodup, List.Perm.refl _⟩

end Ecode.paging
