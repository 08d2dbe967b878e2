-- Lists of entries: the map that a list of keys and values stands for, and what
-- is found in it after a value is put at a key.
import Mathlib

namespace Ecode.entries

variable {K V : Type}

/-- The value of the key, in the place of the old one or at the end. -/
def put [DecidableEq K] (key : K) (value : V) : List (K × V) → List (K × V)
  | [] => [(key, value)]
  | (k, v) :: map => if k = key then (k, value) :: map else (k, v) :: put key value map

def has [BEq K] (map : List (K × V)) (key : K) : Bool := (map.lookup key).isSome

variable [DecidableEq K] [BEq K] [LawfulBEq K] {key k : K} {value : V} {map : List (K × V)}

@[simp] theorem lookup_put_self : (put key value map).lookup key = some value := by
  induction map with
  | nil => simp [put]
  | cons e map ih =>
    obtain ⟨k, v⟩ := e
    unfold put
    split_ifs with hk
    · simp [hk]
    · rw [List.lookup_cons, beq_eq_false_iff_ne.mpr (Ne.symm hk)]
      exact ih

theorem lookup_put_ne (hne : k ≠ key) : (put key value map).lookup k = map.lookup k := by
  induction map with
  | nil => simp [put, hne]
  | cons e map ih =>
    obtain ⟨k', v⟩ := e
    unfold put
    split_ifs with hk
    · subst hk
      rw [List.lookup_cons, List.lookup_cons, beq_eq_false_iff_ne.mpr hne]
    · rw [List.lookup_cons, List.lookup_cons, ih]

theorem lookup_put (key : K) (value : V) (map : List (K × V)) (k : K) :
    (put key value map).lookup k = if k = key then some value else map.lookup k := by
  split_ifs with h
  · rw [h, lookup_put_self]
  · exact lookup_put_ne h

/-- What is there may be put there again. -/
theorem put_of_lookup (h : map.lookup key = some value) : put key value map = map := by
  induction map with
  | nil => exact nomatch h
  | cons e map ih =>
    obtain ⟨k, v⟩ := e
    unfold put
    split_ifs with hk
    · subst hk
      rw [List.lookup_cons_self] at h
      rw [Option.some.inj h]
    · rw [List.lookup_cons, beq_eq_false_iff_ne.mpr (Ne.symm hk)] at h
      rw [ih h]

omit [BEq K] [LawfulBEq K] in
theorem mem_put {e : K × V} (h : e ∈ put key value map) : e = (key, value) ∨ e ∈ map := by
  induction map with
  | nil => exact .inl (List.mem_singleton.mp h)
  | cons e' map ih =>
    obtain ⟨k, v⟩ := e'
    unfold put at h
    split_ifs at h with hk
    · subst hk
      rcases List.mem_cons.mp h with rfl | h
      · exact .inl rfl
      · exact .inr (List.mem_cons_of_mem _ h)
    · rcases List.mem_cons.mp h with rfl | h
      · exact .inr List.mem_cons_self
      · exact (ih h).imp_right (List.mem_cons_of_mem _)

theorem has_put (h : has map k = true ∨ k = key) : has (put key value map) k = true := by
  unfold has at h ⊢
  rw [lookup_put]
  split_ifs with hk
  · rfl
  · exact h.resolve_right hk

end Ecode.entries
