-- What the budget of core/src/retention.rs drops beside environment context: items of the
-- conversation, the latest environment baseline, and one half of a call and its output.
import Ecode.Compaction
import Ecode.Retention

namespace Ecode.retention

open retaining compact

variable {β : Type} (to_json : List β → Text) (content_len : β → Nat)

/-! ## The conversation and the latest baseline -/

/-- Neither environment context nor screenshot nor status. -/
def is_conversation (item : ResponseItem β) : Bool := list_of (categorize_item item) = .Other

def is_baseline (item : ResponseItem β) : Bool := list_of (categorize_item item) = .EnvBaseline

/-- All of the conversation is kept, in its order. -/
def keeps_conversation (items : List (ResponseItem β)) (policy : RetentionPolicy) : Prop :=
  (apply_retention_policy to_json content_len items policy).1.filter is_conversation =
    items.filter is_conversation

def keeps_latest_baseline (items : List (ResponseItem β)) (policy : RetentionPolicy) : Prop :=
  policy.keep_latest_baseline = true → ∀ latest, (items.filter is_baseline).getLast? = some latest →
    latest ∈ (apply_retention_policy to_json content_len items policy).1

/-- The item at a place of what the limits let through fits the budget beside the newer items that
fit. -/
def has_room (items : List (ResponseItem β)) (policy : RetentionPolicy) (i : Nat) : Prop :=
  HasRoom (estimate_item_size to_json content_len) policy.max_total_bytes
    (within_limits policy items) i

theorem within_limits_conversation (policy : RetentionPolicy) (items : List (ResponseItem β)) :
    (within_limits policy items).filter is_conversation = items.filter is_conversation :=
  filter_latest_of_none rfl items

/-- Of a list with a limit the last items are let through. -/
theorem within_limits_of_some {policy : RetentionPolicy} {c : ItemCategory} {n : Nat}
    (h : limit policy c = some n) (items : List (ResponseItem β)) :
    (within_limits policy items).filter (fun item => list_of (categorize_item item) = c) =
      (items.filter fun item => list_of (categorize_item item) = c).drop
        ((items.filter fun item => list_of (categorize_item item) = c).length - n) :=
  filter_latest_of_some h items

/-- The limits let the latest baseline through, or none. -/
theorem within_limits_baseline (policy : RetentionPolicy) (items : List (ResponseItem β)) :
    (within_limits policy items).filter is_baseline =
      if policy.keep_latest_baseline then (items.filter is_baseline).getLast?.toList else [] := by
  unfold is_baseline
  rw [within_limits_of_some rfl]
  cases policy.keep_latest_baseline with
  | false => simp
  | true =>
    exact (owned.getLast_toList _).symm

theorem keeps_latest_baseline_iff (items : List (ResponseItem β)) (policy : RetentionPolicy) :
    keeps_latest_baseline to_json content_len items policy ↔
      (fitting (estimate_item_size to_json content_len) policy.max_total_bytes
        (within_limits policy items)).filter is_baseline =
      (within_limits policy items).filter is_baseline := by
  have hsub := (fitting_sublist (within_limits policy items) : (fitting
    (estimate_item_size to_json content_len) policy.max_total_bytes _).Sublist _).filter is_baseline
  unfold keeps_latest_baseline
  rw [apply_retention_policy_fst]
  rw [within_limits_baseline] at hsub ⊢
  cases hkeep : policy.keep_latest_baseline with
  | false =>
    rw [hkeep] at hsub
    refine iff_of_true (fun h => absurd h Bool.false_ne_true) ?_
    exact List.sublist_nil.mp hsub
  | true =>
    rw [hkeep] at hsub
    simp only [if_true, true_implies] at hsub ⊢
    rcases hlast : (items.filter is_baseline).getLast? with _ | latest
    · rw [hlast] at hsub
      refine iff_of_true (fun _ h => absurd h (Option.some_ne_none _).symm) ?_
      exact List.sublist_nil.mp hsub
    · rw [hlast] at hsub
      have hbaseline : is_baseline latest = true :=
        (List.mem_filter.mp (List.mem_of_getLast? hlast)).2
      simp only [Option.some.injEq, forall_eq', Option.toList_some] at hsub ⊢
      constructor
      · intro hmem
        have hmem := List.mem_filter.mpr ⟨hmem, hbaseline⟩
        rcases List.sublist_singleton.mp hsub with hnil | hone
        · rw [hnil] at hmem
          cases hmem
        · exact hone
      · intro hkept
        have hmem := hkept ▸ List.mem_singleton_self latest
        exact (List.mem_filter.mp hmem).1

/-- The conversation and the latest baseline are kept just when each of their items that the limits
let through has room in the budget. -/
theorem conversation_is_kept_iff_it_has_room (items : List (ResponseItem β))
    (policy : RetentionPolicy) :
    (keeps_conversation to_json content_len items policy ∧
      keeps_latest_baseline to_json content_len items policy) ↔
    ∀ i item, (within_limits policy items)[i]? = some item →
      is_conversation item = true ∨ is_baseline item = true →
      has_room to_json content_len items policy i := by
  have hconversation := filter_fitting_iff (estimate_item_size to_json content_len)
    policy.max_total_bytes is_conversation (within_limits policy items)
  rw [within_limits_conversation, ← apply_retention_policy_fst] at hconversation
  have hbaseline := (keeps_latest_baseline_iff to_json content_len items policy).trans
    (filter_fitting_iff _ _ is_baseline (within_limits policy items))
  rw [keeps_conversation, hconversation, hbaseline]
  constructor
  · rintro ⟨hconversation, hbaseline⟩ i item hi (hitem | hitem)
    · exact hconversation i item hi hitem
    · exact hbaseline i item hi hitem
  · intro h
    exact ⟨fun i item hi hitem => h i item hi (.inl hitem),
      fun i item hi hitem => h i item hi (.inr hitem)⟩

/-- A call with arguments of one byte more than the budget of the default policy. -/
def large_call : ResponseItem Unit :=
  .FunctionCall none "apply_patch".toList none (List.replicate (100 * 1024 + 1) 'a') ['1']

theorem large_call_size : estimate_item_size (fun _ => []) (fun _ => 0) large_call =
    100 * 1024 + 1 := by
  have hlen (n : Nat) : Text.len (List.replicate n 'a') = n := by
    unfold Text.len
    rw [List.map_replicate, List.sum_replicate]
    exact Nat.mul_one n
  exact hlen _

theorem large_call_is_dropped :
    ¬(keeps_conversation (fun _ => []) (fun _ => 0) [large_call] .default ∧
      keeps_latest_baseline (fun _ => []) (fun _ => 0) [large_call] .default) := by
  rintro ⟨hkept, -⟩
  unfold keeps_conversation at hkept
  have hlimits : within_limits .default [large_call] = [large_call] := rfl
  rw [apply_retention_policy_fst, hlimits, fitting, fitting, large_call_size] at hkept
  cases hkept

/-! ## Calls and their outputs -/

/-- Every function call output and custom tool call output stands after its call, and every call
with an id before its output. -/
def PairedAt (stands_at : Nat → ResponseItem β → Prop) : Prop :=
  Partnered stands_at (fun i j => j < i) (fun item => output_id item ≠ none)
    (fun output call => ∃ c, output_id output = some c ∧ c ∈ call_ids call) ∧
  Partnered stands_at (fun i j => i < j) (fun item => call_ids item ≠ [])
    (fun call output => ∃ c ∈ call_ids call, pruned_id output = some c)

def calls_paired (items : List (ResponseItem β)) : Prop :=
  PairedAt fun i item => items[i]? = some item

/-- The items with room in the budget are paired among themselves. -/
def rooms_paired (items : List (ResponseItem β)) (policy : RetentionPolicy) : Prop :=
  PairedAt fun i item => (within_limits policy items)[i]? = some item ∧
    has_room to_json content_len items policy i

theorem calls_paired_apply_iff (items : List (ResponseItem β)) (policy : RetentionPolicy) :
    calls_paired (apply_retention_policy to_json content_len items policy).1 ↔
      rooms_paired to_json content_len items policy := by
  unfold calls_paired rooms_paired PairedAt has_room
  rw [apply_retention_policy_fst]
  exact and_congr
    (partnered_fitting_iff _ (fun i j => j < i) (fun f hmono i j => hmono.lt_iff_lt) _ _)
    (partnered_fitting_iff _ (fun i j => i < j) (fun f hmono i j => hmono.lt_iff_lt) _ _)

/-- Calls stay paired with their outputs just when no half with room has its other half without. -/
theorem calls_stay_paired_iff_halves_have_room (items : List (ResponseItem β))
    (policy : RetentionPolicy) :
    (calls_paired items →
      calls_paired (apply_retention_policy to_json content_len items policy).1) ↔
    (calls_paired items → rooms_paired to_json content_len items policy) := by
  rw [calls_paired_apply_iff]

/-- The call is dropped and its output is kept. -/
theorem output_of_a_large_call_is_orphaned :
    ¬(calls_paired [large_call, function_output ['1']] →
      calls_paired (apply_retention_policy (fun _ => []) (fun _ => 0)
        [large_call, function_output ['1']] .default).1) := by
  intro h
  have hpaired : calls_paired [large_call, function_output ['1']] := by
    constructor
    · intro i item hi hout
      match i with
      | 0 =>
        obtain rfl := Option.some.inj hi
        exact absurd rfl hout
      | 1 =>
        obtain rfl := Option.some.inj hi
        exact ⟨0, large_call, Nat.one_pos, rfl, ['1'], rfl, List.mem_singleton_self _⟩
    · intro i item hi hcall
      match i with
      | 0 =>
        obtain rfl := Option.some.inj hi
        exact ⟨1, function_output ['1'], Nat.one_pos, rfl, ['1'], List.mem_singleton_self _, rfl⟩
      | 1 =>
        obtain rfl := Option.some.inj hi
        exact absurd rfl hcall
  have hlimits : within_limits .default [large_call, function_output ['1']] =
      [large_call, function_output ['1']] := rfl
  have hkept := h hpaired
  rw [apply_retention_policy_fst, hlimits, fitting, fitting, fitting, large_call_size] at hkept
  obtain ⟨j, call, hlt, -⟩ := hkept.1 0 (function_output ['1']) rfl (Option.some_ne_none _)
  exact absurd hlt (Nat.not_lt_zero j)

end Ecode.retention
