-- Maps kept as lists of values that carry their own key, a secondary index of
-- such a map that is updated by hand, and lists in the order of a rank.
import Mathlib

namespace Ecode.keyed

variable {K V P : Type} [DecidableEq K] [DecidableEq P] (key : V → K)

/-! ## The map -/

/-- Each key is there once. -/
def Once (vs : List V) : Prop := (vs.map key).Nodup

def get (vs : List V) (k : K) : Option V := vs.find? fun v => key v = k

def erase (vs : List V) (k : K) : List V := vs.filter fun v => key v ≠ k

/-- The new value takes the place of the one with its key. -/
def insert (vs : List V) (v : V) : List V := v :: erase key vs (key v)

variable {key} {vs : List V} {v w : V} {k k' : K}

@[simp] theorem mem_erase : v ∈ erase key vs k ↔ v ∈ vs ∧ key v ≠ k := by
  simp [erase]

@[simp] theorem mem_insert : w ∈ insert key vs v ↔ w = v ∨ w ∈ vs ∧ key w ≠ key v := by
  simp [insert]

theorem key_of_get (h : get key vs k = some v) : key v = k := by
  simpa using List.find?_some h

theorem mem_of_get (h : get key vs k = some v) : v ∈ vs :=
  List.mem_of_find?_eq_some h

theorem get_eq_none : get key vs k = none ↔ ∀ v ∈ vs, key v ≠ k := by
  simp [get]

theorem get_isSome : (get key vs k).isSome ↔ k ∈ vs.map key := by
  simp [get, List.find?_isSome]

omit [DecidableEq K] in
theorem Once.eq_of_mem (h : Once key vs) (hv : v ∈ vs) (hw : w ∈ vs) (he : key v = key w) :
    v = w :=
  List.inj_on_of_nodup_map h hv hw he

theorem Once.get_iff (h : Once key vs) : get key vs k = some v ↔ v ∈ vs ∧ key v = k := by
  refine ⟨fun hv => ⟨mem_of_get hv, key_of_get hv⟩, ?_⟩
  rintro ⟨hv, rfl⟩
  rcases hw : get key vs (key v) with _ | w
  · exact absurd rfl (get_eq_none.mp hw v hv)
  · rw [h.eq_of_mem (mem_of_get hw) hv (key_of_get hw)]

theorem Once.erase (h : Once key vs) (k : K) : Once key (erase key vs k) :=
  h.sublist (List.filter_sublist.map key)

theorem Once.insert (h : Once key vs) (v : V) : Once key (insert key vs v) := by
  unfold Once keyed.insert
  rw [List.map_cons, List.nodup_cons]
  refine ⟨?_, h.erase (key v)⟩
  simp

omit [DecidableEq K] in
theorem Once.map (h : Once key vs) {f : V → V} (hkey : ∀ v, key (f v) = key v) :
    Once key (vs.map f) := by
  unfold Once
  rw [List.map_map]
  have hf : key ∘ f = key := funext hkey
  rw [hf]
  exact h

theorem get_erase : get key (erase key vs k) k' = if k' = k then none else get key vs k' := by
  split_ifs with h
  · subst h
    rw [get_eq_none]
    intro v hv
    exact (mem_erase.mp hv).2
  · unfold get erase
    rw [List.find?_filter]
    congr 1
    funext v
    by_cases hv : key v = k'
    · simp [hv, h]
    · simp [hv]

theorem get_insert : get key (insert key vs v) k = if k = key v then some v else get key vs k := by
  unfold keyed.insert
  by_cases h : key v = k
  · simp [get, h]
  · have hrest :
        get key (v :: keyed.erase key vs (key v)) k = get key (keyed.erase key vs (key v)) k := by
      simp [get, h]
    rw [hrest, get_erase, if_neg (Ne.symm h), if_neg (Ne.symm h)]

/-! ## A secondary index -/

section index

variable (key) (place : V → Option P)

/-- The key of a new value goes to the end of its place's list. -/
def note (ids : P → List K) (v : V) : P → List K := fun p =>
  if place v = some p then ids p ++ [key v] else ids p

/-- The key of a value leaves the list of its place. -/
def forget (ids : P → List K) (v : V) : P → List K := fun p =>
  if place v = some p then (ids p).filter (· ≠ key v) else ids p

/-- The index lists, at each place, the keys of the values there, each once. -/
structure Exact (vs : List V) (ids : P → List K) : Prop where
  once : ∀ p, (ids p).Nodup
  mem : ∀ p k, k ∈ ids p ↔ ∃ v ∈ vs, key v = k ∧ place v = some p

variable {key place} {ids : P → List K}

omit [DecidableEq K] [DecidableEq P] in
theorem exact_nil : Exact key place [] fun _ => [] :=
  ⟨fun _ => List.nodup_nil, by simp⟩

/-- A value whose key is new is noted. -/
theorem Exact.note (h : Exact key place vs ids) (hnew : ∀ w ∈ vs, key w ≠ key v) :
    Exact key place (insert key vs v) (note key place ids v) := by
  refine ⟨fun p => ?_, fun p k => ?_⟩
  · unfold keyed.note
    split_ifs with hp
    · rw [List.nodup_append_comm, List.singleton_append, List.nodup_cons]
      refine ⟨?_, h.once p⟩
      rw [h.mem]
      rintro ⟨w, hw, he, -⟩
      exact hnew w hw he
    · exact h.once p
  · have hrest : (∃ w ∈ insert key vs v, key w = k ∧ place w = some p) ↔
        key v = k ∧ place v = some p ∨ k ∈ ids p := by
      rw [h.mem]
      constructor
      · rintro ⟨w, hw, hk, hp⟩
        rcases mem_insert.mp hw with rfl | ⟨hw, -⟩
        · exact .inl ⟨hk, hp⟩
        · exact .inr ⟨w, hw, hk, hp⟩
      · rintro (⟨hk, hp⟩ | ⟨w, hw, hk, hp⟩)
        · exact ⟨v, by simp, hk, hp⟩
        · exact ⟨w, mem_insert.mpr (.inr ⟨hw, hnew w hw⟩), hk, hp⟩
    rw [hrest]
    unfold keyed.note
    split_ifs with hp
    · simp [hp, or_comm, eq_comm]
    · simp [hp]

/-- A value that goes is forgotten. -/
theorem Exact.forget (h : Exact key place vs ids) (honce : Once key vs) (hv : v ∈ vs) :
    Exact key place (erase key vs (key v)) (forget key place ids v) := by
  refine ⟨fun p => ?_, fun p k => ?_⟩
  · unfold keyed.forget
    split_ifs
    · exact (h.once p).filter _
    · exact h.once p
  · have hrest : (∃ w ∈ erase key vs (key v), key w = k ∧ place w = some p) ↔
        k ≠ key v ∧ k ∈ ids p := by
      rw [h.mem]
      constructor
      · rintro ⟨w, hw, rfl, hp⟩
        obtain ⟨hw, hne⟩ := mem_erase.mp hw
        exact ⟨hne, w, hw, rfl, hp⟩
      · rintro ⟨hne, w, hw, rfl, hp⟩
        exact ⟨w, mem_erase.mpr ⟨hw, hne⟩, rfl, hp⟩
    rw [hrest]
    unfold keyed.forget
    split_ifs with hp
    · simp [and_comm]
    · refine ⟨fun hk => ⟨?_, hk⟩, fun hk => hk.2⟩
      rintro rfl
      obtain ⟨w, hw, he, hwp⟩ := (h.mem p _).mp hk
      rw [honce.eq_of_mem hw hv he] at hwp
      exact hp hwp

omit [DecidableEq K] [DecidableEq P] in
/-- A change that leaves the keys and the places alone leaves the index right. -/
theorem Exact.map (h : Exact key place vs ids) {f : V → V} (hkey : ∀ v, key (f v) = key v)
    (hplace : ∀ v, place (f v) = place v) : Exact key place (vs.map f) ids := by
  refine ⟨h.once, fun p k => ?_⟩
  rw [h.mem]
  simp [hkey, hplace]

/-- The values that the index finds at a place are the values of that place. -/
theorem Exact.found (h : Exact key place vs ids) (honce : Once key vs) (p : P) :
    ((ids p).filterMap (get key vs)).Perm (vs.filter fun v => place v = some p) := by
  have hids : ((ids p).filterMap (get key vs)).Nodup := by
    refine List.Nodup.filterMap ?_ (h.once p)
    intro k k' v hk hk'
    rw [← key_of_get (Option.mem_def.mp hk), ← key_of_get (Option.mem_def.mp hk')]
  have hvs : (vs.filter fun v => place v = some p).Nodup := (List.Nodup.of_map key honce).filter _
  apply (List.perm_ext_iff_of_nodup hids hvs).mpr
  intro v
  rw [List.mem_filterMap, List.mem_filter, decide_eq_true_iff]
  constructor
  · rintro ⟨k, hk, hget⟩
    obtain ⟨hv, rfl⟩ := honce.get_iff.mp hget
    obtain ⟨w, hw, he, hp⟩ := (h.mem p _).mp hk
    rw [honce.eq_of_mem hw hv he] at hp
    exact ⟨hv, hp⟩
  · rintro ⟨hv, hp⟩
    exact ⟨key v, (h.mem p _).mpr ⟨v, hv, rfl, hp⟩, honce.get_iff.mpr ⟨hv, rfl⟩⟩

end index

/-! ## Lists in the order of a rank -/

section sorting

variable {κ : Type} [LinearOrder κ] (rank : V → κ)

/-- `sort_by_key`. -/
def sort_by_key (vs : List V) : List V := vs.insertionSort fun v w => rank v ≤ rank w

variable {rank} {ws : List V}

@[simp] theorem mem_sort_by_key : v ∈ sort_by_key rank vs ↔ v ∈ vs := List.mem_insertionSort _

theorem sort_by_key_perm (vs : List V) : (sort_by_key rank vs).Perm vs :=
  List.perm_insertionSort _ vs

theorem sort_by_key_sorted (vs : List V) :
    (sort_by_key rank vs).Pairwise fun v w => rank v ≤ rank w :=
  List.pairwise_insertionSort _ vs

/-- Values with ranks of their own have one sorted list. -/
theorem eq_sort_by_key (hrank : ∀ v ∈ vs, ∀ w ∈ vs, rank v = rank w → v = w)
    (hsorted : ws.Pairwise fun v w => rank v ≤ rank w) (h : ws.Perm vs) :
    ws = sort_by_key rank vs := by
  refine List.Perm.eq_of_pairwise ?_ hsorted (sort_by_key_sorted vs)
    (h.trans (sort_by_key_perm vs).symm)
  intro v w hv hw hvw hwv
  exact hrank v (h.mem_iff.mp hv) w (mem_sort_by_key.mp hw) (le_antisymm hvw hwv)

theorem sort_by_key_congr (hrank : ∀ v ∈ ws, ∀ w ∈ ws, rank v = rank w → v = w)
    (h : vs.Perm ws) : sort_by_key rank vs = sort_by_key rank ws :=
  eq_sort_by_key hrank (sort_by_key_sorted vs) ((sort_by_key_perm vs).trans h)

/-- Filtering before the sort or after it is the same. -/
theorem filter_sort_by_key (hrank : ∀ v ∈ vs, ∀ w ∈ vs, rank v = rank w → v = w) (p : V → Bool) :
    (sort_by_key rank vs).filter p = sort_by_key rank (vs.filter p) := by
  refine eq_sort_by_key ?_ ((sort_by_key_sorted vs).filter p) ((sort_by_key_perm vs).filter p)
  intro v hv w hw
  exact hrank v (List.mem_of_mem_filter hv) w (List.mem_of_mem_filter hw)

theorem orderedInsert_append (r : V → V → Prop) [DecidableRel r] (v : V) (vs : List V)
    (h : ∀ w ∈ ws, r v w) :
    (vs ++ ws).orderedInsert r v = vs.orderedInsert r v ++ ws := by
  induction vs with
  | nil =>
    cases ws with
    | nil => rfl
    | cons w ws => simp [h w List.mem_cons_self]
  | cons u vs ih =>
    by_cases hu : r v u
    · simp [hu]
    · simp [hu, ih]

/-- Sorting keeps values in front of those that may come after them. -/
theorem sort_by_key_append (h : ∀ v ∈ vs, ∀ w ∈ ws, rank v ≤ rank w) :
    sort_by_key rank (vs ++ ws) = sort_by_key rank vs ++ sort_by_key rank ws := by
  induction vs with
  | nil => rfl
  | cons v vs ih =>
    have hrest : ∀ u ∈ vs, ∀ w ∈ ws, rank u ≤ rank w := fun u hu => h u (List.mem_cons_of_mem v hu)
    have hfirst : ∀ w ∈ sort_by_key rank ws, rank v ≤ rank w := by
      intro w hw
      exact h v List.mem_cons_self w (mem_sort_by_key.mp hw)
    calc sort_by_key rank (v :: vs ++ ws)
        = (sort_by_key rank (vs ++ ws)).orderedInsert (fun u w => rank u ≤ rank w) v := rfl
      _ = (sort_by_key rank vs).orderedInsert (fun u w => rank u ≤ rank w) v
            ++ sort_by_key rank ws := by
        rw [ih hrest, orderedInsert_append _ _ _ hfirst]
      _ = sort_by_key rank (v :: vs) ++ sort_by_key rank ws := rfl

/-- Which values a cut after the sort leaves whole: those that no value past the cut outranks. -/
theorem subset_take_sort_by_key (hnodup : (vs ++ ws).Nodup) :
    vs ⊆ (sort_by_key rank (vs ++ ws)).take vs.length ↔ ∀ v ∈ vs, ∀ w ∈ ws, rank v ≤ rank w := by
  constructor
  · intro h v hv w hw
    have hlen : vs.length ≤ (sort_by_key rank (vs ++ ws)).length := by
      rw [(sort_by_key_perm _).length_eq, List.length_append]
      omega
    have hsorted : (sort_by_key rank (vs ++ ws)).Nodup :=
      (sort_by_key_perm _).nodup_iff.mpr hnodup
    -- There is room for nothing else in front of the cut.
    have hperm : vs.Perm ((sort_by_key rank (vs ++ ws)).take vs.length) := by
      apply (List.subperm_of_subset (List.nodup_append.mp hnodup).1 h).perm_of_length_le
      rw [List.length_take, Nat.min_eq_left hlen]
    have hout : w ∉ (sort_by_key rank (vs ++ ws)).take vs.length := by
      intro hin
      exact (List.disjoint_of_nodup_append hnodup) (hperm.mem_iff.mpr hin) hw
    have hmem : w ∈ sort_by_key rank (vs ++ ws) :=
      mem_sort_by_key.mpr (List.mem_append_right vs hw)
    rw [← List.take_append_drop vs.length (sort_by_key rank (vs ++ ws)), List.mem_append] at hmem
    have hpair : (sort_by_key rank (vs ++ ws)).Pairwise fun v w => rank v ≤ rank w :=
      sort_by_key_sorted _
    rw [← List.take_append_drop vs.length (sort_by_key rank (vs ++ ws)),
      List.pairwise_append] at hpair
    exact hpair.2.2 v (h hv) w (hmem.resolve_left hout)
  · intro h v hv
    have hlen : vs.length = (sort_by_key rank vs).length := (sort_by_key_perm vs).length_eq.symm
    rw [sort_by_key_append h, hlen, List.take_left]
    exact mem_sort_by_key.mpr hv

/-- The same for a cut that is only reached when there are values to cut. -/
theorem subset_take_of_full {n : Nat} (hnodup : (vs ++ ws).Nodup) (hle : vs.length ≤ n)
    (hfull : ws ≠ [] → vs.length = n) :
    vs ⊆ (sort_by_key rank (vs ++ ws)).take n ↔ ∀ v ∈ vs, ∀ w ∈ ws, rank v ≤ rank w := by
  by_cases hws : ws = []
  · have hlen : (sort_by_key rank vs).length ≤ n := by
      rw [(sort_by_key_perm vs).length_eq]
      exact hle
    rw [hws, List.append_nil, List.take_of_length_le hlen]
    simp [List.subset_def]
  · rw [← hfull hws]
    exact subset_take_sort_by_key hnodup

end sorting

/-! ## Values stored one after another -/

/-- What is stored last under a key is what is found. -/
theorem stored_last {ws : List V} (hw : w ∈ ws) (vs : List V) :
    ∃ v ∈ ws, key v = key w ∧ get key (ws.foldl (insert key) vs) (key w) = some v := by
  induction ws using List.reverseRecOn with
  | nil => cases hw
  | append_singleton ws u ih =>
    rw [List.foldl_append, List.foldl_cons, List.foldl_nil, get_insert]
    by_cases hu : key w = key u
    · exact ⟨u, List.mem_append_right ws List.mem_cons_self, hu.symm, if_pos hu⟩
    · have hne : w ≠ u := fun he => hu (congrArg key he)
      have hrest : w ∈ ws := by simpa [hne] using hw
      obtain ⟨v, hv, hkey, hget⟩ := ih hrest
      exact ⟨v, List.mem_append_left [u] hv, hkey, by rw [if_neg hu, hget]⟩

end Ecode.keyed
