-- Point updates of a partial map, one after another: which value stands at the
-- end, and when the order of the updates does not matter. Nothing here is about
-- patches: the keys and the values are arbitrary.
import Mathlib

namespace Ecode.updates

variable {K V : Type} [DecidableEq K]

/-- The map after the entries, the later ones over the earlier ones. -/
def overlay (S : K → Option V) (es : List (K × Option V)) : K → Option V :=
  es.foldl (fun S e => Function.update S e.1 e.2) S

/-- Two entries of one key have one value. -/
def Consistent (es : List (K × Option V)) : Prop :=
  ∀ e ∈ es, ∀ f ∈ es, e.1 = f.1 → e.2 = f.2

instance [DecidableEq V] (es : List (K × Option V)) : Decidable (Consistent es) :=
  inferInstanceAs (Decidable (∀ e ∈ es, ∀ f ∈ es, e.1 = f.1 → e.2 = f.2))

@[simp] theorem overlay_nil (S : K → Option V) : overlay S [] = S := rfl

@[simp] theorem overlay_cons (S : K → Option V) (e : K × Option V) (es : List (K × Option V)) :
    overlay S (e :: es) = overlay (Function.update S e.1 e.2) es := rfl

theorem overlay_append (S : K → Option V) (es fs : List (K × Option V)) :
    overlay S (es ++ fs) = overlay (overlay S es) fs := by
  simp [overlay, List.foldl_append]

/-! ## The value at one key -/

theorem overlay_of_forall_ne (S : K → Option V) {es : List (K × Option V)} {k : K}
    (h : ∀ e ∈ es, e.1 ≠ k) : overlay S es k = S k := by
  induction es generalizing S with
  | nil => rfl
  | cons e es ih =>
    rw [overlay_cons, ih _ (fun f hf => h f (List.mem_cons_of_mem _ hf))]
    exact Function.update_of_ne (h e List.mem_cons_self).symm _ _

/-- When every entry of the key has the value `v`, and there is one or `v` stood before, then
`v` stands after. -/
theorem overlay_of_forall_eq (S : K → Option V) {es : List (K × Option V)} {k : K} {v : Option V}
    (h : ∀ e ∈ es, e.1 = k → e.2 = v) (h0 : S k = v ∨ ∃ e ∈ es, e.1 = k) :
    overlay S es k = v := by
  induction es generalizing S with
  | nil =>
    rcases h0 with h0 | ⟨e, he, _⟩
    · exact h0
    · cases he
  | cons e es ih =>
    rw [overlay_cons]
    apply ih _ (fun f hf => h f (List.mem_cons_of_mem _ hf))
    by_cases hk : e.1 = k
    · left
      rw [← hk, Function.update_self]
      exact h e List.mem_cons_self hk
    · rcases h0 with h0 | ⟨f, hf, hfk⟩
      · left
        rw [Function.update_of_ne (Ne.symm hk)]
        exact h0
      · right
        rcases List.mem_cons.mp hf with rfl | hf
        · exact absurd hfk hk
        · exact ⟨f, hf, hfk⟩

theorem overlay_of_mem (S : K → Option V) {es : List (K × Option V)} (hc : Consistent es)
    {e : K × Option V} (he : e ∈ es) : overlay S es e.1 = e.2 :=
  overlay_of_forall_eq S (fun f hf hk => hc f hf e he hk) (Or.inr ⟨e, he, rfl⟩)

/-! ## The order of the entries -/

omit [DecidableEq K] in
theorem Consistent.perm {es fs : List (K × Option V)} (hc : Consistent es) (h : es.Perm fs) :
    Consistent fs :=
  fun e he f hf => hc e (h.mem_iff.mpr he) f (h.mem_iff.mpr hf)

/-- Consistent entries give one map, in every order. -/
theorem overlay_perm (S : K → Option V) {es fs : List (K × Option V)} (hc : Consistent es)
    (h : es.Perm fs) : overlay S es = overlay S fs := by
  funext k
  by_cases hk : ∃ e ∈ es, e.1 = k
  · obtain ⟨e, he, rfl⟩ := hk
    rw [overlay_of_mem S hc he, overlay_of_mem S (hc.perm h) (h.mem_iff.mp he)]
  · have hes : ∀ e ∈ es, e.1 ≠ k := fun e he hek => hk ⟨e, he, hek⟩
    rw [overlay_of_forall_ne S hes, overlay_of_forall_ne S (fun e he => hes e (h.mem_iff.mpr he))]

/-- The entries of the last block stand. -/
theorem overlay_last_block {ι : Type} (S : K → Option V) (f : ι → List (K × Option V))
    (is : List ι) {i : ι} (hc : Consistent (f i)) {e : K × Option V} (he : e ∈ f i) :
    overlay S ((is ++ [i]).flatMap f) e.1 = e.2 := by
  rw [List.flatMap_append, List.flatMap_singleton, overlay_append]
  exact overlay_of_mem _ hc he

/-- When blocks of consistent entries give one map in every order of the blocks, then no two
blocks disagree. -/
theorem consistent_of_every_order {ι : Type} (S T : K → Option V) {f : ι → List (K × Option V)}
    {is : List ι} (hb : ∀ i ∈ is, Consistent (f i))
    (h : ∀ js : List ι, js.Perm is → overlay S (js.flatMap f) = T) :
    Consistent (is.flatMap f) := by
  have hlast : ∀ i ∈ is, ∀ e ∈ f i, T e.1 = e.2 := by
    intro i hi e he
    classical
    have hp : (is.erase i ++ [i]).Perm is :=
      List.perm_append_singleton i _ |>.trans (List.perm_cons_erase hi).symm
    rw [← h _ hp]
    exact overlay_last_block S f _ (hb i hi) he
  intro e he g hg hk
  obtain ⟨i, hi, hei⟩ := List.mem_flatMap.mp he
  obtain ⟨j, hj, hgj⟩ := List.mem_flatMap.mp hg
  rw [← hlast i hi e hei, ← hlast j hj g hgj, hk]

end Ecode.updates
