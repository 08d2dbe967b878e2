-- Runs of a machine that may stop in the middle of a step: the states it
-- reaches by steps that meet a condition, and the rule for their invariants.
import Mathlib

namespace Ecode.runs

variable {S A : Type}

/-- The states that are reached from `start` by steps that meet `Ok`. -/
inductive Reached (step : S → A → Option S) (start : S) (Ok : S → A → Prop) : S → Prop
  | start : Reached step start Ok start
  | step {s s' : S} {a : A} : Reached step start Ok s → Ok s a → step s a = some s' →
      Reached step start Ok s'

/-- What holds at the start, and is kept by every step that meets the condition, holds in every
reached state. -/
theorem Reached.invariant {step : S → A → Option S} {start : S} {Ok : S → A → Prop}
    {I : S → Prop} (hstart : I start)
    (hstep : ∀ s a s', I s → Ok s a → step s a = some s' → I s') {s : S}
    (h : Reached step start Ok s) : I s := by
  induction h with
  | start => exact hstart
  | step _ hok hs ih => exact hstep _ _ _ ih hok hs

theorem Reached.mono {step : S → A → Option S} {start : S} {Ok Ok' : S → A → Prop}
    (hok : ∀ s a, Ok s a → Ok' s a) {s : S} (h : Reached step start Ok s) :
    Reached step start Ok' s := by
  induction h with
  | start => exact .start
  | step _ ha hs ih => exact .step ih (hok _ _ ha) hs

theorem Reached.trans {step : S → A → Option S} {start : S} {Ok : S → A → Prop} {s t : S}
    (h : Reached step start Ok s) (h' : Reached step s Ok t) : Reached step start Ok t := by
  induction h' with
  | start => exact h
  | step _ hok hs ih => exact .step ih hok hs

/-- The state after a list of actions that all meet the condition is reached. -/
theorem Reached.actions {step : S → A → Option S} {start : S} {Ok : S → A → Prop}
    [∀ s a, Decidable (Ok s a)] {as : List A} {s s' : S} (h : Reached step start Ok s)
    (hrun : as.foldlM (fun s a => if Ok s a then step s a else none) s = some s') :
    Reached step start Ok s' := by
  induction as generalizing s with
  | nil =>
    obtain rfl : s = s' := by simpa using hrun
    exact h
  | cons a as ih =>
    rw [List.foldlM_cons] at hrun
    obtain ⟨t, ht, hrest⟩ := Option.bind_eq_some_iff.mp hrun
    by_cases hok : Ok s a
    · rw [if_pos hok] at ht
      exact ih (.step h hok ht) hrest
    · simp [hok] at ht

/-- A list of actions that was run from the start, and what was seen at its end, give a reached
state that shows it. -/
theorem Reached.of_run {B : Type} {step : S → A → Option S} {start : S} {Ok : S → A → Prop}
    [∀ s a, Decidable (Ok s a)] {as : List A} {view : S → B} {b : B}
    (hrun : (as.foldlM (fun s a => if Ok s a then step s a else none) start).map view = some b) :
    ∃ s, Reached step start Ok s ∧ view s = b := by
  obtain ⟨s, hs, hview⟩ := Option.map_eq_some_iff.mp hrun
  exact ⟨s, Reached.start.actions hs, hview⟩

/-- What every action keeps is kept by a list of actions. -/
theorem run_invariant {make : S → A → Option S} {I : S → Prop}
    (hmake : ∀ s a s', I s → make s a = some s' → I s') {as : List A} {s s' : S} (hs : I s)
    (hrun : as.foldlM make s = some s') : I s' := by
  induction as generalizing s with
  | nil =>
    obtain rfl : s = s' := by simpa using hrun
    exact hs
  | cons a as ih =>
    rw [List.foldlM_cons] at hrun
    obtain ⟨t, ht, hrest⟩ := Option.bind_eq_some_iff.mp hrun
    exact ih (hmake s a t hs ht) hrest

/-! ## Guarded lists of actions -/

/-- Every action of the list meets the guard in the state where it is made. -/
def Guarded (make : S → A → Option S) (G : S → A → Prop) : S → List A → Prop
  | _, [] => True
  | s, a :: as => G s a ∧ ∀ t, make s a = some t → Guarded make G t as

instance Guarded.decidable {make : S → A → Option S} {G : S → A → Prop}
    [∀ s a, Decidable (G s a)] : ∀ as s, Decidable (Guarded make G s as)
  | [], _ => isTrue trivial
  | a :: as, s =>
    match h : make s a with
    | none => decidable_of_iff (G s a) (by simp [Guarded, h])
    | some t =>
      have : Decidable (Guarded make G t as) := Guarded.decidable as t
      decidable_of_iff (G s a ∧ Guarded make G t as) (by simp [Guarded, h])

theorem guarded_of_forall {make : S → A → Option S} {G : S → A → Prop} {as : List A}
    (h : ∀ a ∈ as, ∀ s, G s a) (s : S) : Guarded make G s as := by
  induction as generalizing s with
  | nil => trivial
  | cons a as ih =>
    have hlater : ∀ b ∈ as, ∀ s, G s b := fun b hb => h b (List.mem_cons_of_mem a hb)
    exact ⟨h a List.mem_cons_self s, fun t _ => ih hlater t⟩

/-- What every guarded action keeps is kept by a guarded list. -/
theorem Guarded.invariant {make : S → A → Option S} {G : S → A → Prop} {I : S → Prop}
    (hmake : ∀ s a s', I s → G s a → make s a = some s' → I s') {as : List A} {s s' : S}
    (hg : Guarded make G s as) (hs : I s) (hrun : as.foldlM make s = some s') : I s' := by
  induction as generalizing s with
  | nil =>
    obtain rfl : s = s' := by simpa using hrun
    exact hs
  | cons a as ih =>
    rw [List.foldlM_cons] at hrun
    obtain ⟨t, ht, hrest⟩ := Option.bind_eq_some_iff.mp hrun
    exact ih (hg.2 t ht) (hmake s a t hs hg.1 ht) hrest

/-- The invariant may say how many steps are still to be made. A property that a step leaves true
exactly when the guard is met holds after a list exactly when it held before it and every action
meets the guard. -/
theorem guarded_iff_countdown {make : S → A → Option S} {G : S → A → Prop} {I : Nat → S → Prop}
    {P : S → Prop} (hI : ∀ n s a t, I (n + 1) s → make s a = some t → I n t)
    (hP : ∀ n s a t, I (n + 1) s → make s a = some t → (P t ↔ P s ∧ G s a)) {as : List A} {s s' : S}
    (hs : I as.length s) (hrun : as.foldlM make s = some s') :
    P s' ↔ P s ∧ Guarded make G s as := by
  induction as generalizing s with
  | nil =>
    obtain rfl : s = s' := by simpa using hrun
    simp [Guarded]
  | cons a as ih =>
    rw [List.foldlM_cons] at hrun
    obtain ⟨t, ht, hrest⟩ := Option.bind_eq_some_iff.mp hrun
    rw [ih (hI _ s a t hs ht) hrest, hP _ s a t hs ht]
    constructor
    · rintro ⟨⟨hp, hg⟩, hlater⟩
      refine ⟨hp, hg, fun t' ht' => ?_⟩
      obtain rfl : t = t' := Option.some.inj (ht.symm.trans ht')
      exact hlater
    · rintro ⟨hp, hg, hlater⟩
      exact ⟨⟨hp, hg⟩, hlater t ht⟩

theorem guarded_iff {make : S → A → Option S} {G : S → A → Prop} {I P : S → Prop}
    (hI : ∀ s a t, I s → make s a = some t → I t)
    (hP : ∀ s a t, I s → make s a = some t → (P t ↔ P s ∧ G s a)) {as : List A} {s s' : S}
    (hs : I s) (hrun : as.foldlM make s = some s') :
    P s' ↔ P s ∧ Guarded make G s as :=
  guarded_iff_countdown (I := fun _ => I) (fun _ => hI) (fun _ => hP) hs hrun

/-- Two guards that an invariant makes the same are met by the same lists. -/
theorem guarded_congr {make : S → A → Option S} {G G' : S → A → Prop} {I : S → Prop}
    (hI : ∀ s a t, I s → make s a = some t → I t) (h : ∀ s a, I s → (G s a ↔ G' s a))
    {as : List A} {s : S} (hs : I s) : Guarded make G s as ↔ Guarded make G' s as := by
  induction as generalizing s with
  | nil => exact Iff.rfl
  | cons a as ih =>
    unfold Guarded
    apply and_congr (h s a hs)
    apply forall_congr'
    intro t
    apply imp_congr_right
    intro ht
    exact ih (hI s a t hs ht)

/-- A property that a step keeps exactly when the guard is met holds all along a list of actions
exactly when every action of the list meets the guard. -/
theorem always_iff_guarded {make : S → A → Option S} {G : S → A → Prop} {P : S → Prop}
    (hP : ∀ s a t, P s → make s a = some t → (P t ↔ G s a))
    (htotal : ∀ s a, ∃ t, make s a = some t) {as : List A} {s : S} (hs : P s) :
    (∀ before t, before <+: as → before.foldlM make s = some t → P t) ↔ Guarded make G s as := by
  induction as generalizing s with
  | nil =>
    refine ⟨fun _ => trivial, ?_⟩
    intro _ before t hbefore hrun
    obtain rfl := List.prefix_nil.mp hbefore
    obtain rfl : s = t := by simpa using hrun
    exact hs
  | cons a as ih =>
    obtain ⟨u, hu⟩ := htotal s a
    constructor
    · intro h
      have hpu : P u := h [a] u (by simp) (by simp [hu])
      refine ⟨(hP s a u hs hu).mp hpu, ?_⟩
      intro t ht
      obtain rfl : u = t := Option.some.inj (hu.symm.trans ht)
      refine (ih hpu).mp fun before t hbefore hrun => ?_
      exact h (a :: before) t (by simpa using hbefore) (by simpa [hu] using hrun)
    · rintro ⟨hg, hlater⟩ before t hbefore hrun
      rcases List.prefix_cons_iff.mp hbefore with rfl | ⟨later, rfl, hprefixed⟩
      · obtain rfl : s = t := by simpa using hrun
        exact hs
      · have hpu := (hP s a u hs hu).mpr hg
        exact (ih hpu).mpr (hlater u hu) later t hprefixed (by simpa [hu] using hrun)

theorem guarded_one {make : S → A → Option S} {G : S → A → Prop} {s : S} {a : A} (h : G s a) :
    Guarded make G s [a] :=
  ⟨h, fun _ _ => trivial⟩

theorem guarded_two {make : S → A → Option S} {G : S → A → Prop} {s : S} {a b : A} (h : G s a)
    (h' : ∀ t, make s a = some t → G t b) : Guarded make G s [a, b] :=
  ⟨h, fun t ht => guarded_one (h' t ht)⟩

/-! ## Lists of events -/

/-- A property of lists of events that an event keeps exactly when the guard is met holds of all
beginnings of a list exactly when every event of the list meets the guard. -/
theorem prefixes_iff {P : List A → Prop} {G : List A → A → Prop} (hnil : P [])
    (hP : ∀ before a, P before → (P (before ++ [a]) ↔ G before a)) (as : List A) :
    (∀ before, before <+: as → P before) ↔ ∀ before a, before ++ [a] <+: as → G before a := by
  constructor
  · intro h before a hbefore
    have hearlier : before <+: as := (List.prefix_append before [a]).trans hbefore
    exact (hP before a (h before hearlier)).mp (h _ hbefore)
  · intro h before hbefore
    induction before using List.reverseRecOn with
    | nil => exact hnil
    | append_singleton before a ih =>
      have hearlier : before <+: as := (List.prefix_append before [a]).trans hbefore
      exact (hP before a (ih hearlier)).mpr (h before a hbefore)

section keyed

variable {K V : Type} [DecidableEq K] (key : A → Option K) (f : V → A → V) (v : V)

/-- What the events of one key make of a value. -/
def keyed (as : List A) (k : K) : V := (as.filter fun a => key a = some k).foldl f v

theorem keyed_append (as : List A) (a : A) (k : K) :
    keyed key f v (as ++ [a]) k =
      if key a = some k then f (keyed key f v as k) a else keyed key f v as k := by
  unfold keyed
  rw [List.filter_append, List.foldl_append]
  split_ifs with h <;> simp [h]

end keyed

end Ecode.runs
