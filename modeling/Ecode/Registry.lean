-- Finite maps that point from keys to the members of a list: how members are
-- enrolled and withdrawn, when every entry is right, and when none is missing.
-- Nothing here is about a history: members, ids and keys are arbitrary.
import Mathlib

namespace Ecode.registry

/-- A map from keys to the ids of members. -/
abbrev Lookup (K ι : Type) := Finmap fun _ : K => ι

section entries

variable {K ι : Type} [DecidableEq K] [DecidableEq ι]

/-- Every key points to `i`. -/
def enroll (m : Lookup K ι) (i : ι) (keys : List K) : Lookup K ι :=
  keys.foldl (fun m k => m.insert k i) m

/-- No key points to `i`; the keys that point elsewhere stay. -/
def withdraw (m : Lookup K ι) (i : ι) (keys : List K) : Lookup K ι :=
  keys.foldl (fun m k => if m.lookup k = some i then m.erase k else m) m

omit [DecidableEq ι] in
theorem lookup_enroll (m : Lookup K ι) (i : ι) (keys : List K) (k : K) :
    (enroll m i keys).lookup k = if k ∈ keys then some i else m.lookup k := by
  induction keys generalizing m with
  | nil => rfl
  | cons a keys ih =>
    have hcons : enroll m i (a :: keys) = enroll (m.insert a i) i keys := rfl
    rw [hcons, ih]
    by_cases hk : k ∈ keys
    · simp [hk]
    · by_cases ha : k = a
      · subst ha
        simp [hk]
      · simp [hk, ha, Finmap.lookup_insert_of_ne]

theorem lookup_withdraw (m : Lookup K ι) (i : ι) (keys : List K) (k : K) :
    (withdraw m i keys).lookup k =
      if k ∈ keys ∧ m.lookup k = some i then none else m.lookup k := by
  induction keys generalizing m with
  | nil => simp [withdraw]
  | cons a keys ih =>
    have hcons : withdraw m i (a :: keys) =
        withdraw (if m.lookup a = some i then m.erase a else m) i keys := rfl
    rw [hcons, ih]
    by_cases hm : m.lookup a = some i
    · by_cases ha : k = a
      · subst ha
        simp [hm]
      · simp [hm, ha, Finmap.lookup_erase_ne]
    · by_cases ha : k = a
      · subst ha
        simp [hm]
      · simp [hm, ha]

end entries

/-! ## Right entries and missing entries -/

section members

variable {K ι M : Type} [DecidableEq K] [DecidableEq ι] (id : M → ι) (keys : M → List K)

/-- Every entry points to a member with that key. -/
def Sound (m : Lookup K ι) (members : List M) : Prop :=
  ∀ k i, m.lookup k = some i → ∃ r ∈ members, id r = i ∧ k ∈ keys r

/-- Every key of every member has an entry. -/
def Complete (m : Lookup K ι) (members : List M) : Prop :=
  ∀ r ∈ members, ∀ k ∈ keys r, (m.lookup k).isSome

variable {id keys} {m : Lookup K ι} {members members' : List M} {r : M}

omit [DecidableEq ι] in
theorem Sound.empty : Sound id keys (∅ : Lookup K ι) members := by
  intro k i hk
  simp at hk

omit [DecidableEq ι] in
/-- The entries stay right when every member with a key is there, or one like it. -/
theorem Sound.transfer (h : Sound id keys m members)
    (hsub : ∀ g ∈ members, keys g ≠ [] → ∃ g' ∈ members', id g' = id g ∧ keys g' = keys g) :
    Sound id keys m members' := by
  intro k i hk
  obtain ⟨g, hg, rfl, hgk⟩ := h k i hk
  obtain ⟨g', hg', hid, hkeys⟩ := hsub g hg (List.ne_nil_of_mem hgk)
  exact ⟨g', hg', hid, hkeys ▸ hgk⟩

omit [DecidableEq ι] in
theorem Sound.enroll (h : Sound id keys m members) (hsub : ∀ g ∈ members, g ∈ members')
    (hr : r ∈ members') : Sound id keys (enroll m (id r) (keys r)) members' := by
  intro k i hk
  rw [lookup_enroll] at hk
  split at hk
  · rename_i hmem
    exact ⟨r, hr, Option.some.inj hk, hmem⟩
  · obtain ⟨g, hg, hgi, hgk⟩ := h k i hk
    exact ⟨g, hsub g hg, hgi, hgk⟩

/-- After a member is withdrawn, the entries are right for the others. -/
theorem Sound.withdraw (h : Sound id keys m members)
    (hsub : ∀ g ∈ members, g = r ∨ g ∈ members') :
    Sound id keys (withdraw m (id r) (keys r)) members' := by
  intro k i hk
  rw [lookup_withdraw] at hk
  split at hk
  · cases hk
  · rename_i hne
    obtain ⟨g, hg, rfl, hgk⟩ := h k i hk
    rcases hsub g hg with rfl | hg'
    · exact absurd ⟨hgk, hk⟩ hne
    · exact ⟨g, hg', rfl, hgk⟩

omit [DecidableEq ι] in
/-- No entry is missing when every member with a key was there, or one like it. -/
theorem Complete.transfer (h : Complete keys m members)
    (hsub : ∀ g' ∈ members', keys g' ≠ [] → ∃ g ∈ members, keys g = keys g') :
    Complete keys m members' := by
  intro g' hg' k hk
  obtain ⟨g, hg, hkeys⟩ := hsub g' hg' (List.ne_nil_of_mem hk)
  exact h g hg k (hkeys ▸ hk)

omit [DecidableEq ι] in
theorem Complete.enroll (h : Complete keys m members) (i : ι)
    (hsub : ∀ g ∈ members', g ∈ members ∨ g = r) :
    Complete keys (enroll m i (keys r)) members' := by
  intro g hg k hk
  rw [lookup_enroll]
  split
  · rfl
  · rename_i hnot
    rcases hsub g hg with hg | rfl
    · exact h g hg k hk
    · exact absurd hk hnot

/-- A member can be withdrawn when no other member has a key that points to it. -/
theorem Complete.withdraw (h : Complete keys m members) {i : ι} {ks : List K}
    (hfree : ∀ k ∈ ks, m.lookup k = some i → ∀ g ∈ members, k ∉ keys g) :
    Complete keys (withdraw m i ks) members := by
  intro g hg k hk
  rw [lookup_withdraw]
  split
  · rename_i hcond
    exact absurd hk (hfree k hcond.1 hcond.2 g hg)
  · exact h g hg k hk

/-! ## Many members -/

/-- Every member is enrolled, one after another. -/
def enroll_all (id : M → ι) (keys : M → List K) (m : Lookup K ι) (members : List M) : Lookup K ι :=
  members.foldl (fun m r => registry.enroll m (id r) (keys r)) m

/-- Every member is withdrawn, one after another. -/
def withdraw_all (id : M → ι) (keys : M → List K) (m : Lookup K ι) (members : List M) :
    Lookup K ι :=
  members.foldl (fun m r => registry.withdraw m (id r) (keys r)) m

omit [DecidableEq ι] in
/-- Members without keys leave the map as it is. -/
theorem enroll_all_of_nil {added : List M} (h : ∀ r ∈ added, keys r = []) :
    enroll_all id keys m added = m := by
  induction added with
  | nil => rfl
  | cons r added ih =>
    have hr : registry.enroll m (id r) (keys r) = m := by
      rw [h r List.mem_cons_self]
      rfl
    unfold enroll_all at ih ⊢
    rw [List.foldl_cons, hr]
    exact ih fun g hg => h g (List.mem_cons_of_mem r hg)

omit [DecidableEq ι] in
theorem Sound.enroll_all (h : Sound id keys m members) {added : List M}
    (hadded : ∀ g ∈ added, g ∈ members) : Sound id keys (enroll_all id keys m added) members := by
  induction added generalizing m with
  | nil => exact h
  | cons r added ih =>
    exact ih (h.enroll (fun _ hg => hg) (hadded r List.mem_cons_self))
      fun g hg => hadded g (List.mem_cons_of_mem _ hg)

omit [DecidableEq ι] in
theorem Complete.enroll_all (h : Complete keys m members) (added : List M) :
    Complete keys (enroll_all id keys m added) (members ++ added) := by
  induction added generalizing m members with
  | nil => simpa [registry.enroll_all] using h
  | cons r added ih =>
    have hr : Complete keys (registry.enroll m (id r) (keys r)) (members ++ [r]) :=
      h.enroll (id r) fun g hg => by simpa using hg
    have hadded := ih hr
    rw [List.append_assoc, List.singleton_append] at hadded
    exact hadded

theorem Sound.withdraw_all {removed : List M} (h : Sound id keys m (members ++ removed)) :
    Sound id keys (withdraw_all id keys m removed) members := by
  induction removed generalizing m with
  | nil => simpa [registry.withdraw_all] using h
  | cons r removed ih =>
    apply ih
    apply h.withdraw
    intro g hg
    simp only [List.mem_append, List.mem_cons] at hg ⊢
    rcases hg with hg | rfl | hg
    · exact .inr (.inl hg)
    · exact .inl rfl
    · exact .inr (.inr hg)

theorem Complete.withdraw_all (h : Complete keys m members) {removed : List M}
    (hfree : ∀ r ∈ removed, ∀ k ∈ keys r, m.lookup k = some (id r) → ∀ g ∈ members, k ∉ keys g) :
    Complete keys (withdraw_all id keys m removed) members := by
  induction removed generalizing m with
  | nil => exact h
  | cons r removed ih =>
    apply ih (h.withdraw (hfree r List.mem_cons_self))
    intro r' hr' k hk hlookup
    rw [lookup_withdraw] at hlookup
    split at hlookup
    · cases hlookup
    · exact hfree r' (List.mem_cons_of_mem _ hr') k hk hlookup

end members

/-! ## The positions of a list -/

section positions

variable {ι : Type} [DecidableEq ι]

/-- The position of every id of the list that counts. -/
def positions (counts : ι → Bool) (ids : List ι) : Lookup ι Nat :=
  ids.zipIdx.foldl (fun m p => if counts p.1 then m.insert p.1 p.2 else m) ∅

theorem lookup_foldl_positions (counts : ι → Bool) {ids : List ι} (hnd : ids.Nodup)
    (hall : ∀ i ∈ ids, counts i = true) (n : Nat) (m : Lookup ι Nat) (i : ι) (j : Nat) :
    ((ids.zipIdx n).foldl (fun m p => if counts p.1 then m.insert p.1 p.2 else m) m).lookup i =
        some j ↔
      (n ≤ j ∧ ids[j - n]? = some i) ∨ (i ∉ ids ∧ m.lookup i = some j) := by
  induction ids generalizing n m with
  | nil => simp
  | cons a ids ih =>
    rw [List.nodup_cons] at hnd
    have hcount : counts a = true := hall a List.mem_cons_self
    rw [List.zipIdx_cons, List.foldl_cons,
      ih hnd.2 (fun b hb => hall b (List.mem_cons_of_mem _ hb))]
    simp only [hcount, ↓reduceIte]
    by_cases hia : i = a
    · subst hia
      simp only [Finmap.lookup_insert, Option.some.injEq, hnd.1, not_false_eq_true, true_and,
        List.mem_cons_self, not_true_eq_false, false_and, or_false]
      constructor
      · rintro (⟨hle, hget⟩ | rfl)
        · exact absurd (List.mem_of_getElem? hget) hnd.1
        · simp
      · rintro ⟨hle, hget⟩
        rcases hd : j - n with _ | d
        · exact .inr (by omega)
        · rw [hd, List.getElem?_cons_succ] at hget
          exact absurd (List.mem_of_getElem? hget) hnd.1
    · rw [Finmap.lookup_insert_of_ne _ hia]
      have hget : ∀ d, (a :: ids)[d]? = some i ↔ 1 ≤ d ∧ ids[d - 1]? = some i := by
        intro d
        cases d with
        | zero => simp [Ne.symm hia]
        | succ d => simp
      rw [hget]
      have hsub : j - n - 1 = j - (n + 1) := by omega
      rw [hsub]
      simp only [List.mem_cons, hia, false_or]
      constructor
      · rintro (⟨hle, h⟩ | h)
        · exact .inl ⟨by omega, by omega, h⟩
        · exact .inr h
      · rintro (⟨hle, hd, h⟩ | h)
        · exact .inl ⟨by omega, h⟩
        · exact .inr h

/-- The positions of ids that differ and all count. -/
theorem lookup_positions {counts : ι → Bool} {ids : List ι} (hnd : ids.Nodup)
    (hall : ∀ i ∈ ids, counts i = true) (i : ι) (j : Nat) :
    (positions counts ids).lookup i = some j ↔ ids[j]? = some i := by
  unfold positions
  rw [lookup_foldl_positions counts hnd hall]
  simp

end positions

end Ecode.registry
