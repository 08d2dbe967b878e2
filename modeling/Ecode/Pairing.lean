-- Calls and their outputs in a list: when every output stands after its call, what
-- is left of that when the first item goes, and when outputs without a call go too.
-- Nothing here is about a conversation: items and ids are arbitrary.
import Mathlib

namespace Ecode.pairing

variable {M K : Type} [DecidableEq K] (calls : M → List K) (output : M → Option K)

/-- Every output stands after a call with its id. -/
def Paired (items : List M) : Prop :=
  ∀ (i : Nat) (item : M) (c : K), items[i]? = some item → output item = some c →
    ∃ (j : Nat) (call : M), j < i ∧ items[j]? = some call ∧ c ∈ calls call

/-- The item is a call or an output with the id. -/
def mentions (c : K) (x : M) : Bool := decide (c ∈ calls x) || decide (output x = some c)

/-- The first item with the id. -/
def next_mention (c : K) (items : List M) : Option M := items.find? (mentions calls output c)

/-- One of the ids is next met at an output. -/
def meets_output (ids : List K) (items : List M) : Bool :=
  ids.any fun c => ((next_mention calls output c items).map output).join = some c

/-- One of the ids that the item calls is next met at an output. -/
def severs (x : M) (rest : List M) : Bool := meets_output calls output (calls x) rest

/-- The ids that are called. -/
def called (items : List M) : List K := items.flatMap calls

/-- One of the ids that the item calls is next met at an output, and is called again too. -/
def severs_live (x : M) (rest : List M) : Bool :=
  meets_output calls output ((calls x).filter fun c => c ∈ called calls rest) rest

variable {calls output} {items items' rest : List M} {x : M}

omit [DecidableEq K] in
theorem paired_nil : Paired calls output ([] : List M) := by
  intro i item c hi
  simp at hi

omit [DecidableEq K] in
/-- A list stays paired when what is appended has its call in the list. -/
theorem paired_concat : Paired calls output (items ++ [x]) ↔
    Paired calls output items ∧ ∀ c, output x = some c → c ∈ called calls items := by
  constructor
  · intro h
    constructor
    · intro i item c hi hout
      obtain ⟨hlt, -⟩ := List.getElem?_eq_some_iff.mp hi
      have hi' : (items ++ [x])[i]? = some item := by rwa [List.getElem?_append_left hlt]
      obtain ⟨j, call, hji, hj, hmem⟩ := h i item c hi' hout
      rw [List.getElem?_append_left (by omega)] at hj
      exact ⟨j, call, hji, hj, hmem⟩
    · intro c hout
      obtain ⟨j, call, hji, hj, hmem⟩ := h items.length x c (by simp) hout
      rw [List.getElem?_append_left hji] at hj
      exact List.mem_flatMap.mpr ⟨call, List.mem_of_getElem? hj, hmem⟩
  · rintro ⟨h, hlast⟩ i item c hi hout
    by_cases hlt : i < items.length
    · rw [List.getElem?_append_left hlt] at hi
      obtain ⟨j, call, hji, hj, hmem⟩ := h i item c hi hout
      refine ⟨j, call, hji, ?_, hmem⟩
      rwa [List.getElem?_append_left (by omega)]
    · have hlen := (List.getElem?_eq_some_iff.mp hi).1
      rw [List.length_append, List.length_singleton] at hlen
      obtain rfl : i = items.length := by omega
      obtain rfl : x = item := by simpa using hi
      obtain ⟨call, hcall, hmem⟩ := List.mem_flatMap.mp (hlast c hout)
      obtain ⟨j, hj, rfl⟩ := List.getElem_of_mem hcall
      refine ⟨j, items[j], hj, ?_, hmem⟩
      rw [List.getElem?_append_left hj, List.getElem?_eq_getElem hj]

omit [DecidableEq K] in
theorem paired_concat_of_none (h : output x = none) :
    Paired calls output (items ++ [x]) ↔ Paired calls output items := by
  rw [paired_concat, h]
  simp

/-! ## Pairing by the next item with an id -/

section first

-- an output calls nothing
variable (hd : ∀ x c, output x = some c → calls x = [])
include hd

/-- Every output is paired when the first item with its id is a call. -/
theorem paired_iff : Paired calls output items ↔
    ∀ c x, next_mention calls output c items = some x → c ∈ calls x := by
  constructor
  · intro h c x hx
    obtain ⟨hmention, i, hi, rfl, hfirst⟩ := List.find?_eq_some_iff_getElem.mp hx
    rcases (Bool.or_eq_true _ _).mp hmention with hcall | hout
    · exact of_decide_eq_true hcall
    · obtain ⟨j, call, hji, hcall, hmem⟩ :=
        h i _ c (List.getElem?_eq_getElem hi) (of_decide_eq_true hout)
      obtain ⟨hj, rfl⟩ := List.getElem?_eq_some_iff.mp hcall
      have hnot := hfirst j hji
      simp [mentions, hmem] at hnot
  · intro h i item c hi hout
    have hmention : mentions calls output c item = true := by simp [mentions, hout]
    have hsome : (next_mention calls output c items).isSome :=
      List.find?_isSome.mpr ⟨item, List.mem_of_getElem? hi, hmention⟩
    obtain ⟨call, hcall⟩ := Option.isSome_iff_exists.mp hsome
    have hmem := h c call hcall
    obtain ⟨_, j, hj, rfl, hfirst⟩ := List.find?_eq_some_iff_getElem.mp hcall
    refine ⟨j, items[j], ?_, List.getElem?_eq_getElem hj, hmem⟩
    obtain ⟨hlt, rfl⟩ := List.getElem?_eq_some_iff.mp hi
    rcases Nat.lt_trichotomy j i with hji | rfl | hij
    · exact hji
    · rw [hd _ c hout] at hmem
      cases hmem
    · have hnot := hfirst i hij
      simp [hmention] at hnot

theorem join_output_iff {c : K} {y : M} (h : next_mention calls output c rest = some y) :
    ((next_mention calls output c rest).map output).join = some c ↔ c ∉ calls y := by
  have hmention : mentions calls output c y = true := List.find?_some h
  simp only [h, Option.map_some, Option.join_some]
  constructor
  · intro hout hmem
    rw [hd y c hout] at hmem
    cases hmem
  · intro hnot
    simpa [mentions, hnot] using hmention

theorem meets_no_output_iff {ids : List K} : meets_output calls output ids rest = false ↔
    ∀ c ∈ ids, ∀ y, next_mention calls output c rest = some y → c ∈ calls y := by
  simp only [meets_output, List.any_eq_false, decide_eq_true_eq]
  constructor
  · intro h c hc y hy
    by_contra hnot
    exact h c hc ((join_output_iff hd hy).mpr hnot)
  · intro h c hc hout
    rcases hy : next_mention calls output c rest with _ | y
    · rw [hy] at hout
      cases hout
    · exact (join_output_iff hd hy).mp hout (h c hc y hy)

/-- Of an id that the first item does not call, the rest has the next mention. -/
theorem next_mention_tail (h : Paired calls output (x :: rest)) {c : K} (hc : c ∉ calls x) :
    next_mention calls output c (x :: rest) = next_mention calls output c rest := by
  have hnot : mentions calls output c x = false := by
    rcases hm : mentions calls output c x with _ | _
    · rfl
    · have hfirst : next_mention calls output c (x :: rest) = some x := by
        simp [next_mention, hm]
      exact absurd ((paired_iff hd).mp h c x hfirst) hc
  simp [next_mention, hnot]

/-- When the first item goes, the rest is paired unless a call is cut from its output. -/
theorem paired_tail_iff (h : Paired calls output (x :: rest)) :
    Paired calls output rest ↔ severs calls output x rest = false := by
  rw [paired_iff hd, severs, meets_no_output_iff hd]
  constructor
  · intro hrest c _ y hy
    exact hrest c y hy
  · intro hcalls c y hy
    by_cases hc : c ∈ calls x
    · exact hcalls c hc y hy
    · rw [← next_mention_tail hd h hc] at hy
      exact (paired_iff hd).mp h c y hy

/-- Pairing depends on the first items with the ids, and on nothing else of them. -/
theorem paired_of_same_mentions
    (hsame : ∀ c, (next_mention calls output c items').map (fun x => c ∈ calls x) =
      (next_mention calls output c items).map fun x => c ∈ calls x)
    (h : Paired calls output items) : Paired calls output items' := by
  rw [paired_iff hd] at h ⊢
  intro c x hx
  have hc := hsame c
  rw [hx] at hc
  rcases hy : next_mention calls output c items with _ | y
  · rw [hy] at hc
    cases hc
  · rw [hy] at hc
    have hmem : (c ∈ calls x) = (c ∈ calls y) := Option.some.inj hc
    rw [hmem]
    exact h c y hy

end first

/-! ## Outputs without a call are dropped -/

section kept

/-- The items without the prunable ones whose id is not called. -/
def kept (calls : M → List K) (prunable : M → Option K) (items : List M) : List M :=
  items.filter fun x =>
    match prunable x with
    | some c => decide (c ∈ called calls items)
    | none => true

variable {prunable : M → Option K} (hd : ∀ x c, prunable x = some c → calls x = [])
  (ho : ∀ x c, output x = some c → prunable x = some c)
include hd ho

omit [DecidableEq K] in
theorem output_calls_nothing (x : M) (c : K) (h : output x = some c) : calls x = [] :=
  hd x c (ho x c h)

/-- The items with a called id stay, those with another one go. -/
theorem next_mention_kept (c : K) : next_mention calls output c (kept calls prunable items) =
    if c ∈ called calls items then next_mention calls output c items else none := by
  unfold next_mention kept
  rw [List.find?_filter]
  split
  · rename_i hcalled
    congr 1
    funext y
    rcases hm : mentions calls output c y with _ | _
    · simp
    · rcases (Bool.or_eq_true _ _).mp hm with hcall | hout
      · have hnone : prunable y = none := by
          rcases hp : prunable y with _ | c'
          · rfl
          · rw [hd y c' hp] at hcall
            simp at hcall
        simp [hnone]
      · simp [ho y c (of_decide_eq_true hout), hcalled]
  · rename_i hnot
    rw [List.find?_eq_none]
    intro y hy
    rcases hm : mentions calls output c y with _ | _
    · simp
    · rcases (Bool.or_eq_true _ _).mp hm with hcall | hout
      · exact absurd (List.mem_flatMap.mpr ⟨y, hy, of_decide_eq_true hcall⟩) hnot
      · simp [ho y c (of_decide_eq_true hout), hnot]

theorem paired_kept_iff : Paired calls output (kept calls prunable items) ↔
    ∀ c ∈ called calls items, ∀ y, next_mention calls output c items = some y → c ∈ calls y := by
  rw [paired_iff (output_calls_nothing hd ho)]
  constructor
  · intro h c hc y hy
    apply h c y
    rw [next_mention_kept hd ho, if_pos hc]
    exact hy
  · intro h c y hy
    rw [next_mention_kept hd ho] at hy
    split at hy
    · rename_i hc
      exact h c hc y hy
    · cases hy

theorem paired_kept (h : Paired calls output items) :
    Paired calls output (kept calls prunable items) :=
  (paired_kept_iff hd ho).mpr fun c _ y hy =>
    (paired_iff (output_calls_nothing hd ho)).mp h c y hy

/-- When the first item and then the outputs without a call go, the rest is paired unless a call
is cut from its output and its id is called again. -/
theorem paired_kept_tail_iff (h : Paired calls output (x :: rest)) :
    Paired calls output (kept calls prunable rest) ↔ severs_live calls output x rest = false := by
  have hd' := output_calls_nothing hd ho
  rw [paired_kept_iff hd ho, severs_live, meets_no_output_iff hd']
  simp only [List.mem_filter, decide_eq_true_eq, and_imp]
  constructor
  · intro hrest c _ hlive y hy
    exact hrest c hlive y hy
  · intro hcalls c hlive y hy
    by_cases hc : c ∈ calls x
    · exact hcalls c hc hlive y hy
    · rw [← next_mention_tail hd' h hc] at hy
      exact (paired_iff hd').mp h c y hy

end kept

end Ecode.pairing
