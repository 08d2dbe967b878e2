-- Two maps that are kept as the inverse of each other: what a new pair, a pair
-- that goes to another key and writes in any order do to them.
import Mathlib

namespace Ecode.two_way_maps

variable {α β : Type} [DecidableEq α] [DecidableEq β] {f : α → Option β} {g : β → Option α}
  {a a' : α} {b b' : β}

/-- The maps are inverse to each other. -/
def Paired (f : α → Option β) (g : β → Option α) : Prop :=
  ∀ a b, f a = some b ↔ g b = some a

omit [DecidableEq α] [DecidableEq β] in
/-- No two values have the same key. -/
theorem Paired.key_injective (h : Paired f g) (hb : g b = some a) (hb' : g b' = some a) :
    b = b' := by
  rw [← h a b] at hb
  rw [← h a b', hb, Option.some.injEq] at hb'
  exact hb'

omit [DecidableEq α] [DecidableEq β] in
/-- A value at a key that has none is at no key. -/
theorem Paired.ne_of_none (h : Paired f g) (ha : f a = none) (hb : g b = some a') : a' ≠ a := by
  rintro rfl
  rw [← h a' b, ha] at hb
  simp at hb

/-- A key and a value that are both new may be paired. -/
theorem Paired.add (h : Paired f g) (ha : f a = none) (hb : g b = none) :
    Paired (Function.update f a (some b)) (Function.update g b (some a)) := by
  intro x y
  by_cases hx : x = a
  · subst hx
    by_cases hy : y = b
    · simp [hy]
    · rw [Function.update_self, Function.update_of_ne hy, ← h x y, ha]
      simp [Ne.symm hy]
  · rw [Function.update_of_ne hx]
    by_cases hy : y = b
    · subst hy
      rw [Function.update_self, h x y, hb]
      simp [Ne.symm hx]
    · rw [Function.update_of_ne hy]
      exact h x y

/-- A value may go from its key to one that has none. -/
theorem Paired.move (h : Paired f g) (hab : f a = some b) (ha' : f a' = none) :
    Paired (Function.update (Function.update f a none) a' (some b))
      (Function.update g b (some a')) := by
  have hne : a' ≠ a := by
    rintro rfl
    simp [ha'] at hab
  have hcleared : Paired (Function.update f a none) (Function.update g b none) := by
    intro x y
    by_cases hy : y = b
    · subst hy
      rw [Function.update_self]
      by_cases hx : x = a
      · simp [hx]
      · rw [Function.update_of_ne hx, h x y, (h a y).mp hab]
        simp [Ne.symm hx]
    · rw [Function.update_of_ne hy]
      by_cases hx : x = a
      · subst hx
        rw [Function.update_self, ← h x y, hab]
        simp [Ne.symm hy]
      · rw [Function.update_of_ne hx]
        exact h x y
  have hfree : Function.update f a none a' = none := by rwa [Function.update_of_ne hne]
  have hmoved := hcleared.add hfree (Function.update_self b none g)
  rwa [Function.update_idem] at hmoved

/-- A value that goes to the key it has stays. -/
theorem Paired.move_self (h : Paired f g) (hab : f a = some b) :
    Function.update (Function.update f a none) a (some b) = f ∧
      Function.update g b (some a) = g := by
  constructor
  · rw [Function.update_idem, ← hab, Function.update_eq_self]
  · rw [← (h a b).mp hab, Function.update_eq_self]

end Ecode.two_way_maps
