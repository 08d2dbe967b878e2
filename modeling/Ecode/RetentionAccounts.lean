-- The statistics of core/src/retention.rs: every item is kept or counted once as removed, and so
-- are its bytes.
import Ecode.Retention

namespace Ecode.retention

open retaining

variable {β : Type}

/-- All the items that the statistics count as gone. -/
def RetentionStats.gone (stats : RetentionStats) : Nat :=
  stats.removed_env_baselines + stats.removed_env_deltas + stats.removed_browser_snapshots +
    stats.removed_screenshots + stats.removed_status + stats.dropped_for_budget

/-- `n` more items are counted as gone, and no bytes. -/
structure Counting (n : Nat) (count : RetentionStats → RetentionStats) : Prop where
  gone : ∀ stats, (count stats).gone = stats.gone + n
  bytes_kept : ∀ stats, (count stats).bytes_kept = stats.bytes_kept
  bytes_removed : ∀ stats, (count stats).bytes_removed = stats.bytes_removed

namespace Counting

theorem none : Counting 0 id := ⟨fun _ => rfl, fun _ => rfl, fun _ => rfl⟩

theorem baseline_removed : Counting 1 baseline_removed := by
  refine ⟨fun stats => ?_, fun _ => rfl, fun _ => rfl⟩
  simp only [RetentionStats.gone, retention.baseline_removed]
  omega

theorem status_removed : Counting 1 status_removed := by
  refine ⟨fun stats => ?_, fun _ => rfl, fun _ => rfl⟩
  simp only [RetentionStats.gone, retention.status_removed]
  omega

theorem screenshot_removed : Counting 1 screenshot_removed := by
  refine ⟨fun stats => ?_, fun _ => rfl, fun _ => rfl⟩
  simp only [RetentionStats.gone, retention.screenshot_removed]
  omega

theorem deltas_removed (n : Nat) : Counting n (deltas_removed n) := by
  refine ⟨fun stats => ?_, fun _ => rfl, fun _ => rfl⟩
  simp only [RetentionStats.gone, retention.deltas_removed]
  omega

theorem snapshots_removed (n : Nat) : Counting n (snapshots_removed n) := by
  refine ⟨fun stats => ?_, fun _ => rfl, fun _ => rfl⟩
  simp only [RetentionStats.gone, retention.snapshots_removed]
  omega

theorem deltas_kept (n : Nat) : Counting 0 (deltas_kept n) :=
  ⟨fun _ => rfl, fun _ => rfl, fun _ => rfl⟩

theorem snapshots_kept (n : Nat) : Counting 0 (snapshots_kept n) :=
  ⟨fun _ => rfl, fun _ => rfl, fun _ => rfl⟩

theorem screenshot_kept : Counting 0 screenshot_kept := ⟨fun _ => rfl, fun _ => rfl, fun _ => rfl⟩

end Counting

theorem gone_remove_all {n : Nat} {count : RetentionStats → RetentionStats}
    (hcount : Counting n count) (items : List (CategorizedItem β)) (stats : RetentionStats) :
    (remove_all count items stats).gone = stats.gone + n * items.length := by
  unfold remove_all
  induction items generalizing stats with
  | nil => rfl
  | cons item items ih =>
    have hone := hcount.gone stats
    rw [List.foldl_cons, ih, List.length_cons, Nat.mul_add]
    change (count stats).gone + _ = _
    omega

theorem bytes_removed_remove_all (count : RetentionStats → RetentionStats)
    (items : List (CategorizedItem β)) (stats : RetentionStats) :
    (remove_all count items stats).bytes_removed =
      stats.bytes_removed + total CategorizedItem.size_bytes items := by
  unfold remove_all
  induction items generalizing stats with
  | nil => rfl
  | cons item items ih =>
    rw [List.foldl_cons, ih]
    simp only [total, List.map_cons, List.sum_cons]
    omega

/-! ## The items and their bytes -/

/-- Of `items` each is kept or counted as gone, and so are its bytes. -/
structure Accounts (items : List (CategorizedItem β)) (s : owned.Kept β) : Prop where
  measured : Measured s
  bytes : s.2.bytes_kept + s.2.bytes_removed = total CategorizedItem.size_bytes items
  count : s.1.length + s.2.gone = items.length

namespace Accounts

variable {items : List (CategorizedItem β)} {s : owned.Kept β}

theorem perm {items' : List (CategorizedItem β)} (h : Accounts items s)
    (hperm : items.Perm items') : Accounts items' s := by
  obtain ⟨hmeasured, hbytes, hcount⟩ := h
  exact ⟨hmeasured, hbytes.trans (total_perm hperm), hcount.trans hperm.length_eq⟩

theorem keep_all (h : Accounts items s) (more : List (CategorizedItem β)) :
    Accounts (items ++ more) (keep_all id more s) := by
  obtain ⟨hmeasured, hbytes, hcount⟩ := h
  refine ⟨owned.keep_all_measured hmeasured, ?_, ?_⟩
  · rw [keep_all_eq, total_append]
    dsimp only
    omega
  · rw [keep_all_eq, List.map_id, List.length_append, List.length_append]
    change _ + s.2.gone = _
    omega

theorem remove_all {count : RetentionStats → RetentionStats} (hcount : Counting 1 count)
    (h : Accounts items s) (more : List (CategorizedItem β)) :
    Accounts (items ++ more) (s.1, remove_all count more s.2) := by
  obtain ⟨hmeasured, hbytes, hlength⟩ := h
  refine ⟨owned.remove_all_measured count hcount.bytes_kept more hmeasured, ?_, ?_⟩
  · rw [owned.remove_all_bytes_kept hcount.bytes_kept, bytes_removed_remove_all, total_append]
    omega
  · rw [gone_remove_all hcount, List.length_append]
    dsimp only
    omega

/-- One item is kept and those before it are removed. -/
theorem keep_last_of (count : RetentionStats → RetentionStats) (hcount : Counting 1 count)
    (h : Accounts items s) {list : List (CategorizedItem β)} {latest : CategorizedItem β}
    (hlatest : list.getLast? = some latest) :
    Accounts (items ++ list) ((retention.keep_all id [latest] s).1,
      retention.remove_all count list.dropLast (retention.keep_all id [latest] s).2) := by
  obtain ⟨older, rfl⟩ := List.getLast?_eq_some_iff.mp hlatest
  rw [List.dropLast_concat]
  apply perm ((h.keep_all [latest]).remove_all hcount older)
  rw [List.append_assoc]
  apply List.Perm.append_left
  exact List.perm_append_comm

theorem keep_latest_baseline (h : Accounts items s) (policy : RetentionPolicy)
    (env_baselines : List (CategorizedItem β)) :
    Accounts (items ++ env_baselines) (owned.keep_latest_baseline policy env_baselines s) := by
  unfold owned.keep_latest_baseline
  split
  · split
    · next latest hlatest => exact h.keep_last_of _ .baseline_removed hlatest
    · exact h.remove_all .baseline_removed env_baselines
  · exact h.remove_all .baseline_removed env_baselines

/-- The statistics count what was removed before, in one sum. -/
theorem counted {n : Nat} {count : RetentionStats → RetentionStats} (hcount : Counting n count)
    (h : Accounts items s) (removed : List (CategorizedItem β)) (hn : removed.length = n) :
    Accounts (items ++ removed) (s.1, retention.remove_all id removed (count s.2)) := by
  obtain ⟨hmeasured, hbytes, hlength⟩ := h
  refine ⟨?_, ?_, ?_⟩
  · have hkept := owned.remove_all_bytes_kept Counting.none.bytes_kept removed (count s.2)
    exact (hkept.trans (hcount.bytes_kept s.2)).trans hmeasured
  · rw [owned.remove_all_bytes_kept Counting.none.bytes_kept, bytes_removed_remove_all,
      hcount.bytes_kept, hcount.bytes_removed, total_append]
    omega
  · rw [gone_remove_all .none, hcount.gone, List.length_append]
    dsimp only
    omega

/-- What is counted as kept changes none of the sums. -/
theorem noted {count : RetentionStats → RetentionStats} (hcount : Counting 0 count)
    (h : Accounts items s) : Accounts items (s.1, count s.2) := by
  have hall := h.counted hcount [] rfl
  rwa [List.append_nil] at hall

theorem keep_last (h : Accounts items s) (limit : Nat) {removed kept : Nat → RetentionStats → RetentionStats}
    (hremoved : ∀ n, Counting n (removed n)) (hkept : ∀ n, Counting 0 (kept n)) (list : List (CategorizedItem β)) :
    Accounts (items ++ list) (owned.keep_last limit removed kept list s) := by
  unfold owned.keep_last
  split
  next to_keep stats heq =>
    split at heq
    · obtain ⟨rfl, rfl⟩ := Prod.mk.inj heq
      have hsplit := List.take_append_drop (list.length - limit) list
      have htake : (list.take (list.length - limit)).length = list.length - limit := by
        rw [List.length_take]
        omega
      have hall := ((h.counted (hremoved _) _ htake).noted
        (hkept (list.drop (list.length - limit)).length)).keep_all
          (list.drop (list.length - limit))
      rw [List.append_assoc, hsplit] at hall
      exact hall
    · obtain ⟨rfl, rfl⟩ := Prod.mk.inj heq
      exact (h.noted (hkept list.length)).keep_all list

theorem keep_latest_screenshot (h : Accounts items s) (screenshots : List (CategorizedItem β)) :
    Accounts (items ++ screenshots) (owned.keep_latest_screenshot screenshots s) := by
  unfold owned.keep_latest_screenshot
  split
  · next latest hlatest => exact (h.noted .screenshot_kept).keep_last_of _ .screenshot_removed hlatest
  · next hnone =>
    obtain rfl := List.getLast?_eq_none_iff.mp hnone
    rwa [List.append_nil]

end Accounts

/-- The lists that the items are put in. -/
def lists : List ItemCategory :=
  [.Other, .EnvBaseline, .EnvDelta, .BrowserSnapshot, .StatusMessage, .Screenshot]

theorem list_of_mem (category : ItemCategory) : list_of category ∈ lists := by
  cases category <;> decide

/-- The limits account for every item, whichever list it is in. -/
theorem limited_accounts (policy : RetentionPolicy) (items : List (CategorizedItem β)) :
    Accounts items (owned.limited policy (separate items)) := by
  have hnone : Accounts ([] : List (CategorizedItem β)) ([], {}) := ⟨rfl, rfl, rfl⟩
  have hperm : (lists.flatMap fun c => in_list c items).Perm items :=
    flatMap_filter_perm (by decide) fun item _ => list_of_mem item.category
  rw [separate_eq]
  refine Accounts.perm ?_ hperm
  have hothers := hnone.keep_all (in_list .Other items)
  have hbaselines := hothers.keep_latest_baseline policy (in_list .EnvBaseline items)
  have hdeltas := hbaselines.keep_last policy.max_env_deltas .deltas_removed .deltas_kept
    (in_list .EnvDelta items)
  have hsnapshots := hdeltas.keep_last policy.max_browser_snapshots .snapshots_removed
    .snapshots_kept (in_list .BrowserSnapshot items)
  have hstatus := hsnapshots.remove_all .status_removed (in_list .StatusMessage items)
  have hall := hstatus.keep_latest_screenshot (in_list .Screenshot items)
  simp only [List.nil_append, List.append_assoc] at hall
  simp only [lists, List.flatMap_cons, List.flatMap_nil, List.append_nil]
  exact hall

/-! ## The budget -/

/-- In the loop the bytes that are kept are those it has taken in and those still before it. -/
theorem budget_loop_accounts (max : Nat) (kept : List (CategorizedItem β))
    {cumulative bytes_kept : Nat} {final : List (CategorizedItem β)} {stats : RetentionStats}
    (hkept : bytes_kept = cumulative + total CategorizedItem.size_bytes kept)
    {cumulative' bytes_kept' : Nat} {final' : List (CategorizedItem β)} {stats' : RetentionStats}
    (hrun : kept.foldl (owned.budget_step max) (cumulative, final, stats, bytes_kept) =
      (cumulative', final', stats', bytes_kept')) :
    bytes_kept' = cumulative' ∧
      bytes_kept' + stats'.bytes_removed = bytes_kept + stats.bytes_removed ∧
      final'.length + stats'.gone = final.length + stats.gone + kept.length := by
  induction kept generalizing cumulative bytes_kept final stats with
  | nil =>
    obtain ⟨rfl, rfl, rfl, rfl⟩ := by simpa using hrun
    exact ⟨hkept, rfl, rfl⟩
  | cons item kept ih =>
    simp only [total, List.map_cons, List.sum_cons] at hkept ih
    rw [List.foldl_cons, owned.budget_step] at hrun
    split at hrun
    · obtain ⟨hcumulative, hbytes, hcount⟩ := ih (by omega) hrun
      refine ⟨hcumulative, hbytes, ?_⟩
      rw [hcount, List.length_append, List.length_cons, List.length_cons, List.length_nil]
      omega
    · obtain ⟨hcumulative, hbytes, hcount⟩ := ih (by omega) hrun
      refine ⟨hcumulative, ?_, ?_⟩
      · rw [hbytes]
        dsimp only
        omega
      · rw [hcount, List.length_cons]
        simp only [RetentionStats.gone]
        omega

/-- What the budget drops is counted as gone, with its bytes. -/
theorem fit_budget_accounts (policy : RetentionPolicy) {items : List (CategorizedItem β)}
    {s : owned.Kept β} (h : Accounts items s) : Accounts items (owned.fit_budget policy s) := by
  obtain ⟨hmeasured, hbytes, hcount⟩ := h
  have hperm : (owned.sort_by_index s.1).Perm s.1 := List.perm_insertionSort _ s.1
  unfold owned.fit_budget
  generalize owned.sort_by_index s.1 = kept at hperm
  dsimp only
  split
  · rcases hrun : kept.reverse.foldl (owned.budget_step policy.max_total_bytes)
      (0, [], s.2, s.2.bytes_kept) with ⟨cumulative, final, stats, bytes_kept⟩
    have hkept : s.2.bytes_kept = 0 + total CategorizedItem.size_bytes kept.reverse := by
      rw [Nat.zero_add, total_perm ((List.reverse_perm kept).trans hperm), hmeasured]
    obtain ⟨hcumulative, hsum, hgone⟩ := budget_loop_accounts _ _ hkept hrun
    have hloop := owned.budget_loop policy.max_total_bytes kept.reverse
      (0, [], s.2, s.2.bytes_kept)
    rw [hrun, foldl_take_in] at hloop
    obtain ⟨htotal, hfinal⟩ := Prod.mk.inj hloop
    dsimp only at htotal hfinal
    have hsorted : (owned.sort_by_index final).Perm final := List.perm_insertionSort _ final
    have hlength := hperm.length_eq
    rw [List.length_reverse] at hgone
    refine ⟨?_, ?_, ?_⟩
    · unfold Measured
      rw [total_perm hsorted, hfinal, total_perm (List.reverse_perm _), ← htotal]
      exact hcumulative
    · exact hsum.trans hbytes
    · rw [hsorted.length_eq]
      simp only [RetentionStats.gone, List.length_nil] at hgone hcount ⊢
      omega
  · refine ⟨?_, hbytes, ?_⟩
    · unfold Measured
      rw [total_perm hperm]
      exact hmeasured
    · rw [hperm.length_eq]
      exact hcount

/-! ## The pass -/

variable (to_json : List β → Text) (content_len : β → Nat)

theorem total_categorized (items : List (ResponseItem β)) :
    total CategorizedItem.size_bytes (categorized to_json content_len items) =
      total (estimate_item_size to_json content_len) items := by
  have hsize : CategorizedItem.size_bytes ∘
      (fun p : ResponseItem β × Nat => .new to_json content_len p.1 p.2) =
        estimate_item_size to_json content_len ∘ Prod.fst := rfl
  unfold categorized
  rw [total_map, hsize, ← total_map, List.zipIdx_map_fst]

/-- The output is a part of the input in its order, and the statistics count each item, and each
byte, once: as kept or as gone. -/
structure AccountsFor (items : List (ResponseItem β)) (policy : RetentionPolicy)
    (output : List (ResponseItem β)) (stats : RetentionStats) : Prop where
  sublist : output.Sublist items
  kept : stats.bytes_kept = total (estimate_item_size to_json content_len) output
  budget : stats.bytes_kept ≤ policy.max_total_bytes
  bytes : stats.bytes_kept + stats.bytes_removed =
    total (estimate_item_size to_json content_len) items
  count : items.length = output.length +
    (stats.removed_env_baselines + stats.removed_env_deltas + stats.removed_browser_snapshots +
      stats.removed_screenshots + stats.removed_status + stats.dropped_for_budget)

/-- For every list of items and every policy the statistics account for all of the list. -/
theorem retention_accounts (items : List (ResponseItem β)) (policy : RetentionPolicy) :
    AccountsFor to_json content_len items policy
      (apply_retention_policy to_json content_len items policy).1
      (apply_retention_policy to_json content_len items policy).2 := by
  have hall := fit_budget_accounts policy
    (limited_accounts policy (categorized to_json content_len items))
  have hindex := categorized_index to_json content_len items
  have hfit := owned.fit_budget_fst policy
    (owned.limited_measured policy (separate (categorized to_json content_len items)))
    (owned.sort_limited policy hindex) (hindex.sublist (latest_sublist _))
  unfold apply_retention_policy
  dsimp only
  rw [fit_budget_limited]
  generalize owned.fit_budget policy
    (owned.limited policy (separate (categorized to_json content_len items))) = s at hall hfit ⊢
  obtain ⟨hmeasured, hbytes, hcount⟩ := hall
  have houtput : (borrowed.as_indexed s).1.map Prod.snd = s.1.map CategorizedItem.item := by
    simp [borrowed.as_indexed, borrowed.indexed, Function.comp_def]
  have hsublist : s.1.Sublist (categorized to_json content_len items) := by
    rw [hfit]
    exact (fitting_sublist _).trans (latest_sublist _)
  have hsize : total CategorizedItem.size_bytes s.1 =
      total (estimate_item_size to_json content_len) (s.1.map CategorizedItem.item) := by
    rw [total_map]
    apply total_congr
    intro item hmem
    exact (categorized_size to_json content_len (hsublist.subset hmem)).symm
  have hitems : (categorized to_json content_len items).map CategorizedItem.item = items := by
    unfold categorized
    rw [List.map_map]
    exact List.zipIdx_map_fst 0 items
  rw [houtput]
  simp only [borrowed.as_indexed]
  refine ⟨?_, ?_, ?_, ?_, ?_⟩
  · have hpart := hsublist.map CategorizedItem.item
    rwa [hitems] at hpart
  · rw [← hsize]
    exact hmeasured
  · rw [hmeasured, hfit]
    apply total_fitting_le
  · rw [hbytes]
    apply total_categorized
  · rw [List.length_map]
    have hlength := congrArg List.length hitems
    rw [List.length_map] at hlength
    simp only [RetentionStats.gone] at hcount
    omega

end Ecode.retention
