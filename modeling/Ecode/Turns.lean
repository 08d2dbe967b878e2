-- Calls and their outputs within turns: a list is cut into turns where some of its items begin
-- one, and every output stands after its call in the same turn. Nothing here is about a
-- conversation: items, ids and what begins a turn are arbitrary.
import Ecode.Pairing

namespace Ecode.pairing

variable {M K : Type} (calls : M → List K) (output : M → Option K) (begins : M → Bool)

/-- Every output stands after a call with its id, and no turn begins between the two. -/
def TurnPaired (items : List M) : Prop :=
  ∀ (i : Nat) (item : M) (c : K), items[i]? = some item → output item = some c →
    ∃ (j : Nat) (call : M), j < i ∧ items[j]? = some call ∧ c ∈ calls call ∧
      ∀ k x, j < k → k < i → items[k]? = some x → begins x = false

variable {calls output begins} {items xs ys : List M}

theorem TurnPaired.paired (h : TurnPaired calls output begins items) :
    Paired calls output items := by
  intro i item c hi hout
  obtain ⟨j, call, hj, hcall, hmem, -⟩ := h i item c hi hout
  exact ⟨j, call, hj, hcall, hmem⟩

theorem TurnPaired.of_no_outputs (h : ∀ x ∈ items, output x = none) :
    TurnPaired calls output begins items := by
  intro i item c hi hout
  rw [h item (List.mem_of_getElem? hi)] at hout
  cases hout

theorem TurnPaired.append (hx : TurnPaired calls output begins xs)
    (hy : TurnPaired calls output begins ys) : TurnPaired calls output begins (xs ++ ys) := by
  intro i item c hi hout
  rcases Nat.lt_or_ge i xs.length with hlt | hge
  · rw [List.getElem?_append_left hlt] at hi
    obtain ⟨j, call, hj, hcall, hmem, hturn⟩ := hx i item c hi hout
    refine ⟨j, call, hj, ?_, hmem, ?_⟩
    · rwa [List.getElem?_append_left (hj.trans hlt)]
    · intro k x hjk hki hk
      rw [List.getElem?_append_left (hki.trans hlt)] at hk
      exact hturn k x hjk hki hk
  · rw [List.getElem?_append_right hge] at hi
    obtain ⟨j, call, hj, hcall, hmem, hturn⟩ := hy _ item c hi hout
    refine ⟨xs.length + j, call, by omega, ?_, hmem, ?_⟩
    · rw [List.getElem?_append_right (by omega), Nat.add_sub_cancel_left]
      exact hcall
    · intro k x hjk hki hk
      rw [List.getElem?_append_right (by omega)] at hk
      exact hturn (k - xs.length) x (by omega) (by omega) hk

/-- What stands before a place is paired, as every call stands before its output. -/
theorem TurnPaired.take (h : TurnPaired calls output begins items) (n : Nat) :
    TurnPaired calls output begins (items.take n) := by
  intro i item c hi hout
  have hin : i < n := by
    by_contra hge
    rw [List.getElem?_eq_none (by rw [List.length_take]; omega)] at hi
    cases hi
  rw [List.getElem?_take_of_lt hin] at hi
  obtain ⟨j, call, hj, hcall, hmem, hturn⟩ := h i item c hi hout
  refine ⟨j, call, hj, ?_, hmem, ?_⟩
  · rwa [List.getElem?_take_of_lt (hj.trans hin)]
  · intro k x hjk hki hk
    rw [List.getElem?_take_of_lt (hki.trans hin)] at hk
    exact hturn k x hjk hki hk

/-- What stands from the beginning of a turn on is paired: a call before it is no call of an
output after it. -/
theorem TurnPaired.drop (hbegins : ∀ x, begins x = true → output x = none)
    (h : TurnPaired calls output begins items) {n : Nat}
    (hn : ∀ x, items[n]? = some x → begins x = true) :
    TurnPaired calls output begins (items.drop n) := by
  intro i item c hi hout
  rw [List.getElem?_drop] at hi
  obtain ⟨j, call, hj, hcall, hmem, hturn⟩ := h (n + i) item c hi hout
  have hlt : n + i < items.length := (List.getElem?_eq_some_iff.mp hi).1
  have hfirst := hn items[n] (List.getElem?_eq_getElem (by omega))
  have hnj : n ≤ j := by
    by_contra hjn
    rcases Nat.eq_zero_or_pos i with rfl | hpos
    · -- the output would begin the turn itself
      obtain rfl : items[n] = item :=
        Option.some.inj ((List.getElem?_eq_getElem (by omega)).symm.trans hi)
      rw [hbegins _ hfirst] at hout
      cases hout
    · have hnot := hturn n items[n] (by omega) (by omega) (List.getElem?_eq_getElem (by omega))
      rw [hfirst] at hnot
      cases hnot
  refine ⟨j - n, call, by omega, ?_, hmem, ?_⟩
  · rw [List.getElem?_drop, Nat.add_sub_cancel' hnj]
    exact hcall
  · intro k x hjk hki hk
    rw [List.getElem?_drop] at hk
    exact hturn (n + k) x (by omega) (by omega) hk

end Ecode.pairing
