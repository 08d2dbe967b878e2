-- Records in two maps: the live ones, and an archive for the oldest of those that have ended, when
-- there are more of them than a bound. Keys, records and their ages are arbitrary.
import Mathlib

namespace Ecode.tiers

abbrev Records (K A : Type) := AList fun _ : K => A

abbrev Record (K A : Type) := Sigma fun _ : K => A

structure Tiers (K A : Type) where
  live : Records K A
  archive : Records K A

section operations

variable {K A : Type} [DecidableEq K]

/-- The live record of a key, else the archived one. -/
def Tiers.find (t : Tiers K A) (k : K) : Option A := (t.live.lookup k).or (t.archive.lookup k)

/-- A key has a record in one of the maps at most. -/
def Tiers.Disjoint (t : Tiers K A) : Prop :=
  ∀ k, t.live.lookup k = none ∨ t.archive.lookup k = none

theorem find_iff {t : Tiers K A} (h : t.Disjoint) {k : K} {a : A} :
    t.find k = some a ↔ t.live.lookup k = some a ∨ t.archive.lookup k = some a := by
  unfold Tiers.find
  rcases h k with hlive | harchive
  · simp [hlive]
  · simp [harchive]

/-- The record of a key, changed in its place. -/
def alter (records : Records K A) (k : K) (f : A → A) : Records K A :=
  match records.lookup k with
  | some a => records.insert k (f a)
  | none => records

def Tiers.retire (t : Tiers K A) (k : K) : Tiers K A :=
  match t.live.lookup k with
  | some a => ⟨t.live.erase k, t.archive.insert k a⟩
  | none => t

def Tiers.retire_all (t : Tiers K A) (ks : List K) : Tiers K A := ks.foldl Tiers.retire t

theorem lookup_alter (records : Records K A) (k k' : K) (f : A → A) :
    (alter records k f).lookup k' =
      if k' = k then (records.lookup k).map f else records.lookup k' := by
  unfold alter
  rcases hk : records.lookup k with _ | a
  · by_cases hkk : k' = k
    · subst hkk
      simp [hk]
    · simp [hkk]
  · by_cases hkk : k' = k
    · subst hkk
      simp [AList.lookup_insert]
    · simp [hkk, AList.lookup_insert_ne hkk]

/-- A change of the live record of a key. -/
def Tiers.change (t : Tiers K A) (k : K) (f : A → A) : Tiers K A :=
  { t with live := alter t.live k f }

/-- What is at a key was there, or is the change of what was there. -/
theorem live_change {t : Tiers K A} {k k' : K} {f : A → A} {b : A}
    (h : (t.change k f).live.lookup k' = some b) :
    t.live.lookup k' = some b ∨ ∃ a, t.live.lookup k' = some a ∧ b = f a := by
  unfold Tiers.change at h
  rw [lookup_alter] at h
  split_ifs at h with hkk
  · subst hkk
    obtain ⟨a, ha, rfl⟩ := Option.map_eq_some_iff.mp h
    exact .inr ⟨a, ha, rfl⟩
  · exact .inl h

theorem find_change {t : Tiers K A} {k k' : K} {f : A → A} {b : A}
    (h : (t.change k f).find k' = some b) :
    t.find k' = some b ∨ ∃ a, t.find k' = some a ∧ b = f a := by
  unfold Tiers.find at h ⊢
  rcases hlive : (t.change k f).live.lookup k' with _ | c
  · have hnone : t.live.lookup k' = none := by
      unfold Tiers.change at hlive
      rw [lookup_alter] at hlive
      split_ifs at hlive with hkk
      · subst hkk
        simpa using hlive
      · exact hlive
    rw [hlive] at h
    rw [hnone]
    exact .inl h
  · rw [hlive] at h
    obtain rfl : c = b := by simpa using h
    rcases live_change hlive with hsame | ⟨a, ha, rfl⟩
    · exact .inl (by simp [hsame])
    · exact .inr ⟨a, by simp [ha], rfl⟩

/-- What a change leaves of the records stays at every key. -/
theorem map_find_change {B : Type} {g : A → B} {f : A → A} (hg : ∀ a, g (f a) = g a)
    (t : Tiers K A) (k k' : K) : ((t.change k f).find k').map g = (t.find k').map g := by
  unfold Tiers.find Tiers.change
  rw [lookup_alter]
  by_cases hkk : k' = k
  · subst hkk
    rcases t.live.lookup k' with _ | a
    · simp
    · simp [hg]
  · simp [hkk]

theorem Tiers.Disjoint.change {t : Tiers K A} (h : t.Disjoint) (k : K) (f : A → A) :
    (t.change k f).Disjoint := by
  intro k'
  rcases h k' with hlive | harchive
  · left
    unfold Tiers.change
    rw [lookup_alter]
    by_cases hkk : k' = k
    · subst hkk
      simp [hlive]
    · simp [hkk, hlive]
  · exact .inr harchive

/-- A new live record. -/
def Tiers.add (t : Tiers K A) (k : K) (a : A) : Tiers K A := { t with live := t.live.insert k a }

theorem live_add (t : Tiers K A) (k k' : K) (a : A) :
    (t.add k a).live.lookup k' = if k' = k then some a else t.live.lookup k' := by
  unfold Tiers.add
  by_cases hkk : k' = k
  · subst hkk
    simp [AList.lookup_insert]
  · simp [hkk, AList.lookup_insert_ne hkk]

theorem find_add (t : Tiers K A) (k k' : K) (a : A) :
    (t.add k a).find k' = if k' = k then some a else t.find k' := by
  unfold Tiers.find
  rw [live_add]
  by_cases hkk : k' = k
  · simp [hkk]
  · simp [hkk, Tiers.add]

theorem Tiers.Disjoint.add {t : Tiers K A} (h : t.Disjoint) {k : K} (hnew : t.find k = none)
    (a : A) : (t.add k a).Disjoint := by
  intro k'
  rw [live_add]
  by_cases hkk : k' = k
  · subst hkk
    exact .inr (Option.or_eq_none_iff.mp hnew).2
  · simpa [hkk, Tiers.add] using h k'

theorem live_retire (t : Tiers K A) (k k' : K) :
    (t.retire k).live.lookup k' = if k' = k then none else t.live.lookup k' := by
  unfold Tiers.retire
  rcases hk : t.live.lookup k with _ | a
  · by_cases hkk : k' = k
    · subst hkk
      simp [hk]
    · simp [hkk]
  · by_cases hkk : k' = k
    · subst hkk
      simp
    · simp [hkk, AList.lookup_erase_ne hkk]

theorem archive_retire (t : Tiers K A) (k k' : K) :
    (t.retire k).archive.lookup k' = if k' = k then t.find k else t.archive.lookup k' := by
  unfold Tiers.retire Tiers.find
  rcases hk : t.live.lookup k with _ | a
  · by_cases hkk : k' = k
    · subst hkk
      simp
    · simp [hkk]
  · by_cases hkk : k' = k
    · subst hkk
      simp [AList.lookup_insert]
    · simp [hkk, AList.lookup_insert_ne hkk]

@[simp]
theorem find_retire (t : Tiers K A) (k k' : K) : (t.retire k).find k' = t.find k' := by
  unfold Tiers.find
  rw [live_retire, archive_retire]
  by_cases hkk : k' = k
  · subst hkk
    simp [Tiers.find]
  · simp [hkk]

theorem live_retire_all (t : Tiers K A) (ks : List K) (k : K) :
    (t.retire_all ks).live.lookup k = if k ∈ ks then none else t.live.lookup k := by
  unfold Tiers.retire_all
  induction ks generalizing t with
  | nil => simp
  | cons first ks ih =>
    rw [List.foldl_cons, ih, live_retire]
    by_cases hk : k ∈ ks
    · simp [hk]
    · simp [hk]

@[simp]
theorem find_retire_all (t : Tiers K A) (ks : List K) (k : K) :
    (t.retire_all ks).find k = t.find k := by
  unfold Tiers.retire_all
  induction ks generalizing t with
  | nil => rfl
  | cons first ks ih => rw [List.foldl_cons, ih, find_retire]

theorem archive_retire_all (t : Tiers K A) (ks : List K) (k : K) :
    (t.retire_all ks).archive.lookup k =
      if k ∈ ks then t.find k else t.archive.lookup k := by
  unfold Tiers.retire_all
  induction ks generalizing t with
  | nil => simp
  | cons first ks ih =>
    rw [List.foldl_cons, ih, archive_retire, find_retire]
    by_cases hk : k = first
    · subst hk
      simp
    · simp [hk]

theorem Tiers.Disjoint.retire_all {t : Tiers K A} (h : t.Disjoint) (ks : List K) :
    (t.retire_all ks).Disjoint := by
  intro k
  rw [live_retire_all, archive_retire_all]
  by_cases hk : k ∈ ks
  · simp [hk]
  · simpa [hk] using h k

end operations

/-! ## The oldest records that have ended -/

section surplus

variable {K A T : Type} [DecidableEq K] [LinearOrder T] {ended : A → Bool} {age : A → T}
  {max : Nat} {entries : List (Record K A)} {t : Tiers K A}

def finished (ended : A → Bool) (entries : List (Record K A)) : List (Record K A) :=
  entries.filter fun e => ended e.2

def oldest_first (age : A → T) (entries : List (Record K A)) : List (T × K) :=
  (entries.map fun e => (age e.2, e.1)).mergeSort fun x y => x.1 ≤ y.1

/-- The keys of the oldest records that have ended, as many as there are beyond the bound. -/
def surplus (ended : A → Bool) (age : A → T) (max : Nat) (entries : List (Record K A)) : List K :=
  ((oldest_first age (finished ended entries)).take
    ((finished ended entries).length - max)).map Prod.snd

/-- The keys that stay. -/
def rest (ended : A → Bool) (age : A → T) (max : Nat) (entries : List (Record K A)) : List K :=
  ((oldest_first age (finished ended entries)).drop
    ((finished ended entries).length - max)).map Prod.snd

omit [DecidableEq K] in
theorem oldest_first_perm (age : A → T) (entries : List (Record K A)) :
    (oldest_first age entries).Perm (entries.map fun e => (age e.2, e.1)) :=
  List.mergeSort_perm _ _

omit [DecidableEq K] in
theorem oldest_first_sorted (age : A → T) (entries : List (Record K A)) :
    (oldest_first age entries).Pairwise fun x y => x.1 ≤ y.1 := by
  have hsorted : (oldest_first age entries).Pairwise fun x y => decide (x.1 ≤ y.1) = true := by
    apply List.pairwise_mergeSort
    · intro a b c hab hbc
      simp only [decide_eq_true_eq] at hab hbc ⊢
      exact hab.trans hbc
    · intro a b
      simpa using le_total a.1 b.1
  exact hsorted.imp fun h => by simpa using h

omit [DecidableEq K] in
theorem surplus_append_rest :
    (surplus ended age max entries ++ rest ended age max entries).Perm
      ((finished ended entries).map Sigma.fst) := by
  unfold surplus rest
  rw [← List.map_append, List.take_append_drop]
  have hperm := (oldest_first_perm age (finished ended entries)).map Prod.snd
  simpa [List.map_map, Function.comp_def] using hperm

omit [DecidableEq K] in
theorem rest_length : (rest ended age max entries).length ≤ max := by
  unfold rest
  rw [List.length_map, List.length_drop, (oldest_first_perm _ _).length_eq, List.length_map]
  omega

/-- What is in the surplus is no younger than what stays. -/
theorem age_surplus_le (hperm : entries.Perm t.live.entries) {k k' : K} {a b : A}
    (hk : k ∈ surplus ended age max entries) (ha : t.live.lookup k = some a)
    (hk' : k' ∈ rest ended age max entries) (hb : t.live.lookup k' = some b) : age a ≤ age b := by
  have hage : ∀ x ∈ oldest_first age (finished ended entries), ∀ c,
      t.live.lookup x.2 = some c → x.1 = age c := by
    intro x hx c hc
    obtain ⟨e, he, rfl⟩ := List.mem_map.mp ((oldest_first_perm _ _).mem_iff.mp hx)
    have hmem : e ∈ t.live.entries := hperm.mem_iff.mp (List.mem_of_mem_filter he)
    have hlookup : t.live.lookup e.1 = some e.2 := AList.mem_lookup_iff.mpr hmem
    rw [Option.some.inj (hlookup.symm.trans hc)]
  obtain ⟨x, hx, rfl⟩ := List.mem_map.mp hk
  obtain ⟨y, hy, rfl⟩ := List.mem_map.mp hk'
  have hsorted := oldest_first_sorted age (finished ended entries)
  rw [← List.take_append_drop ((finished ended entries).length - max)
    (oldest_first age (finished ended entries)), List.pairwise_append] at hsorted
  have hle := hsorted.2.2 x hx y hy
  rwa [hage x (List.mem_of_mem_take hx) a ha, hage y (List.mem_of_mem_drop hy) b hb] at hle

theorem mem_finished_iff (hperm : entries.Perm t.live.entries) {k : K} :
    k ∈ (finished ended entries).map Sigma.fst ↔
      ∃ a, t.live.lookup k = some a ∧ ended a = true := by
  unfold finished
  simp only [List.mem_map, List.mem_filter]
  constructor
  · rintro ⟨⟨k, a⟩, ⟨hmem, hended⟩, rfl⟩
    exact ⟨a, AList.mem_lookup_iff.mpr (hperm.mem_iff.mp hmem), hended⟩
  · rintro ⟨a, hlookup, hended⟩
    exact ⟨⟨k, a⟩, ⟨hperm.mem_iff.mpr (AList.mem_lookup_iff.mp hlookup), hended⟩, rfl⟩

theorem surplus_ended (hperm : entries.Perm t.live.entries) {k : K}
    (hk : k ∈ surplus ended age max entries) : ∃ a, t.live.lookup k = some a ∧ ended a = true :=
  (mem_finished_iff hperm).mp (surplus_append_rest.mem_iff.mp (List.mem_append_left _ hk))

/-- A record that has ended and is not in the surplus stays. -/
theorem mem_rest (hperm : entries.Perm t.live.entries) {k : K} {a : A}
    (hlookup : t.live.lookup k = some a) (hended : ended a = true)
    (hk : k ∉ surplus ended age max entries) : k ∈ rest ended age max entries := by
  have hmem : k ∈ surplus ended age max entries ++ rest ended age max entries :=
    surplus_append_rest.mem_iff.mpr ((mem_finished_iff hperm).mpr ⟨a, hlookup, hended⟩)
  rcases List.mem_append.mp hmem with hsurplus | hrest
  · exact absurd hsurplus hk
  · exact hrest

/-- The live map without the surplus. -/
def Tiers.prune (t : Tiers K A) (ended : A → Bool) (age : A → T) (max : Nat)
    (entries : List (Record K A)) : Tiers K A :=
  t.retire_all (surplus ended age max entries)

theorem live_prune (hperm : entries.Perm t.live.entries) {k : K} {a : A}
    (hlookup : (t.prune ended age max entries).live.lookup k = some a) (hended : ended a = true) :
    t.live.lookup k = some a ∧ k ∈ rest ended age max entries := by
  unfold Tiers.prune at hlookup
  rw [live_retire_all] at hlookup
  split_ifs at hlookup with hk
  exact ⟨hlookup, mem_rest hperm hlookup hended hk⟩

/-- At most the bound of the live records have ended. -/
theorem prune_bounded (hperm : entries.Perm t.live.entries) :
    (finished ended (t.prune ended age max entries).live.entries).length ≤ max := by
  have hnodup : ((finished ended (t.prune ended age max entries).live.entries).map
      Sigma.fst).Nodup :=
    (List.filter_sublist.map _).nodup (AList.keys_nodup (t.prune ended age max entries).live)
  have hsubset : ((finished ended (t.prune ended age max entries).live.entries).map Sigma.fst) ⊆
      rest ended age max entries := by
    intro k hk
    obtain ⟨a, hlookup, hended⟩ := (mem_finished_iff (List.Perm.refl _)).mp hk
    exact (live_prune hperm hlookup hended).2
  have hlength := (List.subperm_of_subset hnodup hsubset).length_le
  rw [List.length_map] at hlength
  exact hlength.trans rest_length

/-- Records that have ended are no more than those they come from. -/
theorem finished_le {t' : Tiers K A} (h : ∀ k b, t'.live.lookup k = some b → ended b = true →
    ∃ a, t.live.lookup k = some a ∧ ended a = true) :
    (finished ended t'.live.entries).length ≤ (finished ended t.live.entries).length := by
  have hnodup : ((finished ended t'.live.entries).map Sigma.fst).Nodup :=
    (List.filter_sublist.map _).nodup (AList.keys_nodup t'.live)
  have hsubset : ((finished ended t'.live.entries).map Sigma.fst) ⊆
      (finished ended t.live.entries).map Sigma.fst := by
    intro k hk
    obtain ⟨b, hb, hended⟩ := (mem_finished_iff (List.Perm.refl _)).mp hk
    exact (mem_finished_iff (List.Perm.refl _)).mpr (h k b hb hended)
  simpa using (List.subperm_of_subset hnodup hsubset).length_le

/-- What comes to the archive had ended, and is no younger than what has ended and stays. -/
theorem prune_oldest (hperm : entries.Perm t.live.entries) {k : K} {a : A}
    (hnew : t.archive.lookup k = none)
    (ha : (t.prune ended age max entries).archive.lookup k = some a) :
    ended a = true ∧ ∀ k' b, (t.prune ended age max entries).live.lookup k' = some b →
      ended b = true → age a ≤ age b := by
  unfold Tiers.prune at ha
  rw [archive_retire_all] at ha
  split_ifs at ha with hk
  · obtain ⟨c, hc, hended⟩ := surplus_ended hperm hk
    obtain rfl : c = a := by simpa [Tiers.find, hc] using ha
    refine ⟨hended, fun k' b hb hended' => ?_⟩
    obtain ⟨hlive, hrest⟩ := live_prune hperm hb hended'
    exact age_surplus_le hperm hk hc hrest hlive
  · rw [hnew] at ha
    cases ha

end surplus

end Ecode.tiers
