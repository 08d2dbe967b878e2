-- A ledger: a map from ids to amounts and the total of the amounts, against the
-- list of entries that it should hold. Ids are arbitrary.
import Ecode.Registry

namespace Ecode.ledger

open registry

variable {ι : Type} [DecidableEq ι]

/-- The ids of the entries differ, the total is the sum of the entries, and the map holds exactly
the entries. -/
structure Balanced (total : Nat) (by_id : Lookup ι Nat) (entries : List (ι × Nat)) : Prop where
  nodup : (entries.map Prod.fst).Nodup
  total_eq : total = (entries.map Prod.snd).sum
  lookup_iff : ∀ id n, by_id.lookup id = some n ↔ (id, n) ∈ entries

variable {total : Nat} {by_id : Lookup ι Nat} {entries entries' : List (ι × Nat)} {id : ι}
  {n prev : Nat}

theorem Balanced.empty : Balanced 0 (∅ : Lookup ι Nat) [] :=
  ⟨List.nodup_nil, rfl, by simp⟩

theorem Balanced.perm (h : Balanced total by_id entries) (hperm : entries.Perm entries') :
    Balanced total by_id entries' := by
  refine ⟨?_, ?_, ?_⟩
  · exact (hperm.map Prod.fst).nodup_iff.mp h.nodup
  · rw [h.total_eq]
    exact (hperm.map Prod.snd).sum_eq
  · intro id n
    rw [h.lookup_iff, hperm.mem_iff]

/-- An id without an entry is not in the map. -/
theorem Balanced.lookup_none (h : Balanced total by_id entries)
    (hid : id ∉ entries.map Prod.fst) : by_id.lookup id = none := by
  rcases hl : by_id.lookup id with _ | n
  · rfl
  · have hmem := (h.lookup_iff id n).mp hl
    exact absurd (List.mem_map_of_mem (f := Prod.fst) hmem) hid

/-- The entries decide the total and the map. -/
theorem Balanced.unique {total' : Nat} {by_id' : Lookup ι Nat} (h : Balanced total by_id entries)
    (h' : Balanced total' by_id' entries) : total = total' ∧ by_id = by_id' := by
  refine ⟨h.total_eq.trans h'.total_eq.symm, Finmap.ext_lookup fun id => ?_⟩
  apply Option.ext
  intro n
  rw [h.lookup_iff, h'.lookup_iff]

theorem Balanced.lookup_head (h : Balanced total by_id ((id, prev) :: entries)) :
    by_id.lookup id = some prev :=
  (h.lookup_iff id prev).mpr List.mem_cons_self

theorem Balanced.prev_le (h : Balanced total by_id ((id, prev) :: entries)) : prev ≤ total := by
  rw [h.total_eq, List.map_cons, List.sum_cons]
  exact Nat.le_add_right _ _

theorem Balanced.not_mem_rest (h : Balanced total by_id ((id, prev) :: entries)) :
    id ∉ entries.map Prod.fst :=
  (List.nodup_cons.mp h.nodup).1

/-- An entry for an id that has none. -/
theorem Balanced.post (h : Balanced total by_id entries) (hid : id ∉ entries.map Prod.fst) :
    Balanced (total + n) (by_id.insert id n) ((id, n) :: entries) := by
  refine ⟨?_, ?_, ?_⟩
  · rw [List.map_cons, List.nodup_cons]
    exact ⟨hid, h.nodup⟩
  · rw [h.total_eq, List.map_cons, List.sum_cons, Nat.add_comm]
  · intro k m
    by_cases hk : k = id
    · subst hk
      have hnone : (k, m) ∉ entries := fun hmem =>
        hid (List.mem_map_of_mem (f := Prod.fst) hmem)
      simp [hnone, eq_comm]
    · rw [Finmap.lookup_insert_of_ne _ hk, h.lookup_iff]
      simp [hk]

/-- An entry is taken out. -/
theorem Balanced.close (h : Balanced total by_id ((id, prev) :: entries)) :
    Balanced (total - prev) (by_id.erase id) entries := by
  refine ⟨(List.nodup_cons.mp h.nodup).2, ?_, ?_⟩
  · rw [h.total_eq, List.map_cons, List.sum_cons]
    omega
  · intro k m
    by_cases hk : k = id
    · subst hk
      have hnone : (k, m) ∉ entries := fun hmem =>
        h.not_mem_rest (List.mem_map_of_mem (f := Prod.fst) hmem)
      simp [hnone]
    · rw [Finmap.lookup_erase_ne hk, h.lookup_iff]
      simp [hk]

/-- The amount of an entry is set to another. -/
theorem Balanced.amend (h : Balanced total by_id ((id, prev) :: entries)) :
    Balanced (total - prev + n) (by_id.insert id n) ((id, n) :: entries) := by
  have hposted := h.close.post (n := n) h.not_mem_rest
  refine ⟨hposted.nodup, hposted.total_eq, ?_⟩
  intro k m
  rw [← hposted.lookup_iff]
  by_cases hk : k = id
  · subst hk
    simp
  · rw [Finmap.lookup_insert_of_ne _ hk, Finmap.lookup_insert_of_ne _ hk,
      Finmap.lookup_erase_ne hk]

end Ecode.ledger
