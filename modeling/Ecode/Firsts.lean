-- The items of a list without those whose key an earlier item has. Items without a key all stay.
-- Items and keys are arbitrary.
import Mathlib

namespace Ecode.repeats

variable {α K : Type} (key : α → Option K)

/-- The key of the item was met before. -/
def Repeated (before : List α) (a : α) : Prop := ∃ k ∈ key a, ∃ b ∈ before, key b = some k

section

variable {key} {l : List α} {a b : α} {k : K}

theorem repeated_iff (hb : key b = some k) : Repeated key l b ↔ ∃ a ∈ l, key a = some k := by
  simp [Repeated, hb]

theorem not_repeated_of_none (hb : key b = none) : ¬ Repeated key l b := by
  simp [Repeated, hb]

end

variable [DecidableEq K]

instance Repeated.decidable (before : List α) (a : α) : Decidable (Repeated key before a) :=
  inferInstanceAs (Decidable (∃ k ∈ key a, ∃ b ∈ before, key b = some k))

/-- The items with a new key, in their order. -/
def firsts (l : List α) : List α :=
  l.foldl (fun kept a => if Repeated key kept a then kept else kept ++ [a]) []

variable {key} {l : List α} {a : α}

theorem firsts_snoc (l : List α) (a : α) :
    firsts key (l ++ [a]) =
      if Repeated key (firsts key l) a then firsts key l else firsts key l ++ [a] := by
  unfold firsts
  rw [List.foldl_append]
  rfl

theorem firsts_sublist (l : List α) : (firsts key l).Sublist l := by
  induction l using List.reverseRecOn with
  | nil => exact List.Sublist.refl []
  | append_singleton l a ih =>
    rw [firsts_snoc]
    split_ifs
    · exact ih.trans (List.sublist_append_left l [a])
    · exact ih.append (List.Sublist.refl [a])

/-- Leaving repetitions out loses no key. -/
theorem key_mem_firsts (k : K) :
    (∃ a ∈ firsts key l, key a = some k) ↔ ∃ a ∈ l, key a = some k := by
  constructor
  · rintro ⟨a, ha, hk⟩
    exact ⟨a, (firsts_sublist l).subset ha, hk⟩
  · induction l using List.reverseRecOn with
    | nil => simp
    | append_singleton l b ih =>
      rintro ⟨a, ha, hk⟩
      rw [firsts_snoc]
      rcases List.mem_append.mp ha with hbefore | hlast
      · obtain ⟨c, hc, hck⟩ := ih ⟨a, hbefore, hk⟩
        refine ⟨c, ?_, hck⟩
        split_ifs
        · exact hc
        · exact List.mem_append_left _ hc
      · obtain rfl := List.mem_singleton.mp hlast
        split_ifs with hrepeated
        · exact (repeated_iff hk).mp hrepeated
        · exact ⟨a, List.mem_append_right _ (List.mem_singleton_self a), hk⟩

theorem repeated_firsts : Repeated key (firsts key l) a ↔ Repeated key l a := by
  cases ha : key a with
  | none => exact iff_of_false (not_repeated_of_none ha) (not_repeated_of_none ha)
  | some k => rw [repeated_iff ha, repeated_iff ha, key_mem_firsts]

theorem firsts_append_new (h : ¬ Repeated key l a) :
    firsts key (l ++ [a]) = firsts key l ++ [a] := by
  rw [firsts_snoc, if_neg (mt repeated_firsts.mp h)]

theorem firsts_mono {l' : List α} (h : l <+: l') : firsts key l <+: firsts key l' := by
  obtain ⟨more, rfl⟩ := h
  induction more using List.reverseRecOn with
  | nil => rw [List.append_nil]
  | append_singleton more a ih =>
    rw [← List.append_assoc, firsts_snoc]
    split_ifs
    · exact ih
    · exact ih.trans (List.prefix_append _ _)

/-- No key stands twice. -/
theorem firsts_nodup (l : List α) : ((firsts key l).filterMap key).Nodup := by
  induction l using List.reverseRecOn with
  | nil => exact List.nodup_nil
  | append_singleton l a ih =>
    rw [firsts_snoc]
    split_ifs with hrepeated
    · exact ih
    · rw [List.filterMap_append]
      refine ih.append ?_ ?_
      · cases hk : key a <;> simp [hk]
      · intro k hbefore hlast
        obtain ⟨b, hb, hbk⟩ := List.mem_filterMap.mp hbefore
        obtain ⟨c, hc, hck⟩ := List.mem_filterMap.mp hlast
        obtain rfl := List.mem_singleton.mp hc
        exact hrepeated ((repeated_iff hck).mpr ⟨b, hb, hbk⟩)

end Ecode.repeats
