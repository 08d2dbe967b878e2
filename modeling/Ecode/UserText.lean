-- Which messages of the user outlive the cleanup of a history (core/src/codex/session.rs,
-- core/src/retention.rs): a screenshot or a marker beside the user's own words can cost them.
import Ecode.HistoryCleanup

namespace Ecode.cleanup

open placing retaining retention

variable {β : Type}

/-! ## The scan -/

/-- A text with one of the markers of a status or of the environment. -/
def is_marker (text : Text) : Bool :=
  is_status_text text || Text.contains text ENV_CTX_OPEN || Text.contains text ENV_CTX_DELTA_OPEN ||
    Text.contains text BROWSER_SNAPSHOT_OPEN

/-- A message of the user with a text that is not empty and no marker. -/
def has_user_text : ResponseItem β → Bool :=
  of_user fun content => any_input_text content fun text => !text.isEmpty && !is_marker text

theorem next_items_to_keep (k : Kept β) (keep : Bool) (item : ResponseItem β) :
    (k.next keep item).items_to_keep = k.items_to_keep ++ if keep then [item] else [] := by
  unfold Kept.next
  cases keep with
  | true => rfl
  | false =>
    rw [if_neg Bool.false_ne_true, if_neg Bool.false_ne_true, List.append_nil]
    cases item with
    | Message id role content end_turn phase =>
      dsimp only
      split <;> rfl
    | _ => rfl

theorem kept_items_eq (keep : Nat → Bool) (items : List (ResponseItem β × Nat)) (k : Kept β) :
    (items.foldl (fun k x => k.next (keep x.2) x.1) k).items_to_keep =
      k.items_to_keep ++ (items.filter fun x => keep x.2).map Prod.fst := by
  induction items generalizing k with
  | nil => simp
  | cons x items ih =>
    rw [List.foldl_cons, ih, next_items_to_keep]
    by_cases hkeep : keep x.2 = true
    · simp [hkeep]
    · simp [hkeep]

theorem prune_history_items_fst (items : List (ResponseItem β)) :
    (prune_history_items items).1 = keep_at (keep items (scan items)) items :=
  kept_items_eq _ _ _

theorem prune_history_items_owned_fst (items : List (ResponseItem β)) :
    (prune_history_items_owned items).1 = keep_at (keep items (scan items)) items := by
  unfold prune_history_items_owned
  dsimp only
  rw [drain_eq]
  apply kept_items_eq

theorem mem_insert_found (find : Nat → Option Nat) (users : List Nat) (kept : Finset Nat) (i : Nat) :
    i ∈ users.foldl (fun kept u => match find u with
      | some j => insert j kept
      | none => kept) kept ↔ i ∈ kept ∨ ∃ u ∈ users, find u = some i := by
  induction users generalizing kept with
  | nil => simp
  | cons u users ih =>
    rw [List.foldl_cons, ih]
    cases hfind : find u with
    | none => simp [hfind]
    | some j =>
      simp only [Finset.mem_insert, List.mem_cons, exists_eq_or_imp, hfind, Option.some.injEq]
      rw [or_comm (a := i = j), or_assoc, eq_comm]

/-- The first screenshot after one of the last two messages that are only the user's text. -/
def recent_screenshot (items : List (ResponseItem β)) (i : Nat) (item : ResponseItem β) : Prop :=
  of_user has_screenshot item = true ∧
    ∃ u < i, (∃ message, items[u]? = some message ∧ of_user is_plain message = true) ∧
      (items.drop (u + 1)).countP (of_user is_plain) < 2 ∧
      ∀ k shown, u < k → k < i → items[k]? = some shown → of_user has_screenshot shown = false

/-- Either the scan finds no status in the message, or it is among the few that stay. -/
def stays (items : List (ResponseItem β)) (i : Nat) (item : ResponseItem β) : Prop :=
  of_user is_status item = false ∨ recent_screenshot items i item ∨
    of_user has_browser_snapshot item = true ∧
      (items.drop (i + 1)).countP (of_user has_browser_snapshot) < MAX_BROWSER_SNAPSHOTS ∨
    of_user has_env_baseline item = true ∧
      (items.drop (i + 1)).countP (of_user has_env_baseline) = 0 ∨
    of_user has_env_delta item = true ∧
      (items.drop (i + 1)).countP (of_user has_env_delta) < MAX_ENV_DELTAS

theorem of_user_status_of_screenshot {item : ResponseItem β}
    (h : of_user has_screenshot item = true) : of_user is_status item = true := by
  cases item with
  | Message id role content end_turn phase =>
    simp only [of_user, Bool.and_eq_true] at h ⊢
    exact ⟨h.1, by simp [is_status, h.2]⟩
  | _ => cases h

theorem of_user_screenshot {item : ResponseItem β} (h : of_user is_status item = true) :
    of_user has_screenshot item = shows_screenshot item := by
  cases item with
  | Message id role content end_turn phase =>
    simp only [of_user, Bool.and_eq_true] at h
    rw [of_user, h.1]
    rfl
  | _ => cases h

/-- A place of a status message that shows a screenshot. -/
theorem mem_status_and_screenshot {items : List (ResponseItem β)} {i : Nat} :
    (i ∈ places (of_user is_status) items ∧ screenshot_at items i = true) ↔
      ∃ item, items[i]? = some item ∧ of_user has_screenshot item = true := by
  rw [mem_places]
  constructor
  · rintro ⟨⟨item, hi, hstatus⟩, hshown⟩
    refine ⟨item, hi, ?_⟩
    rw [of_user_screenshot hstatus]
    simpa [screenshot_at, hi] using hshown
  · rintro ⟨item, hi, hshown⟩
    have hstatus := of_user_status_of_screenshot hshown
    refine ⟨⟨item, hi, hstatus⟩, ?_⟩
    rw [of_user_screenshot hstatus] at hshown
    simpa [screenshot_at, hi] using hshown

/-- The first status message with a screenshot after a place. -/
theorem find?_screenshot {items : List (ResponseItem β)} {u i : Nat} :
    ((places (of_user is_status) items).find? fun status_idx =>
        u < status_idx && screenshot_at items status_idx) = some i ↔
      (∃ item, items[i]? = some item ∧ of_user has_screenshot item = true) ∧ u < i ∧
        ∀ k shown, u < k → k < i → items[k]? = some shown → of_user has_screenshot shown = false := by
  rw [find?_sorted (places_sorted items), ← mem_status_and_screenshot]
  simp only [Bool.and_eq_true, Bool.and_eq_false_iff, decide_eq_true_eq, decide_eq_false_iff_not]
  constructor
  · rintro ⟨hmem, ⟨hafter, hshown⟩, hfirst⟩
    refine ⟨⟨hmem, hshown⟩, hafter, ?_⟩
    intro k shown huk hki hk
    by_contra hscreenshot
    obtain ⟨hstatus, hat⟩ := mem_status_and_screenshot.mpr
      ⟨shown, hk, Bool.eq_true_of_not_eq_false hscreenshot⟩
    rcases hfirst k hstatus hki with hle | hnone
    · exact hle huk
    · exact Bool.false_ne_true (hnone.symm.trans hat)
  · rintro ⟨⟨hmem, hshown⟩, hafter, hfirst⟩
    refine ⟨hmem, ⟨hafter, hshown⟩, ?_⟩
    intro k hstatus hki
    by_contra hfound
    simp only [not_or, not_not, Bool.not_eq_false] at hfound
    obtain ⟨shown, hk, hscreenshot⟩ := mem_status_and_screenshot.mp ⟨hstatus, hfound.2⟩
    exact Bool.false_ne_true ((hfirst k shown hfound.1 hki hk).symm.trans hscreenshot)

theorem mem_screenshots_to_keep {items : List (ResponseItem β)} {i : Nat} {item : ResponseItem β}
    (hi : items[i]? = some item) :
    i ∈ screenshots_to_keep items (scan items) ↔ recent_screenshot items i item := by
  unfold screenshots_to_keep
  rw [scan_eq]
  refine (mem_insert_found (fun u => (places (of_user is_status) items).find? fun status_idx =>
    u < status_idx && screenshot_at items status_idx) _ _ _).trans ?_
  simp only [Finset.notMem_empty, false_or, mem_last_places, find?_screenshot, hi,
    Option.some.injEq, exists_eq_left']
  unfold recent_screenshot
  constructor
  · rintro ⟨u, ⟨hplain, hlast⟩, hshown, hafter, hfirst⟩
    exact ⟨hshown, u, hafter, hplain, hlast, hfirst⟩
  · rintro ⟨hshown, u, hafter, hplain, hlast, hfirst⟩
    exact ⟨u, ⟨hplain, hlast⟩, hshown, hafter, hfirst⟩

/-- At each place the scan keeps what `stays` says. -/
theorem keep_iff {items : List (ResponseItem β)} {i : Nat} {item : ResponseItem β}
    (hi : items[i]? = some item) : keep items (scan items) i = true ↔ stays items i item := by
  have hstatus : i ∈ (scan items).status_messages ↔ of_user is_status item = true := by
    rw [scan_eq]
    simp [mem_places, hi]
  have hsnapshots : i ∈ browser_snapshots_to_keep (scan items) ↔
      of_user has_browser_snapshot item = true ∧
        (items.drop (i + 1)).countP (of_user has_browser_snapshot) < MAX_BROWSER_SNAPSHOTS := by
    rw [browser_snapshots_to_keep, scan_eq, List.mem_toFinset, mem_last_places]
    simp [hi]
  have hbaseline : (scan items).env_baselines.getLast? = some i ↔
      of_user has_env_baseline item = true ∧
        (items.drop (i + 1)).countP (of_user has_env_baseline) = 0 := by
    rw [scan_eq, getLast?_places]
    simp [hi]
  have hdeltas : i ∈ env_deltas_to_keep (scan items) ↔
      of_user has_env_delta item = true ∧
        (items.drop (i + 1)).countP (of_user has_env_delta) < MAX_ENV_DELTAS := by
    rw [env_deltas_to_keep, scan_eq, List.mem_toFinset, mem_last_places]
    simp [hi]
  unfold keep stays
  rw [← mem_screenshots_to_keep hi, ← hsnapshots, ← hbaseline, ← hdeltas]
  by_cases hmem : of_user is_status item = true
  · rw [if_pos (hstatus.mpr hmem), hmem]
    simp only [Bool.or_eq_true, decide_eq_true_eq, Bool.true_eq_false, false_or, or_assoc]
  · rw [if_neg (mt hstatus.mp hmem)]
    exact iff_of_true rfl (.inl (Bool.eq_false_of_not_eq_true hmem))

/-! ## Both paths -/

variable (to_json : List β → Text) (content_len : β → Nat)

/-- The limit of its list lets the item through, and the budget has room for it beside what is kept
after it. -/
def spared (policy : RetentionPolicy) (later : List (ResponseItem β)) (item : ResponseItem β) :
    Prop :=
  within_limit (fun item => list_of (categorize_item item)) (limit policy) item later = true ∧
    total (estimate_item_size to_json content_len)
      (fitting (estimate_item_size to_json content_len) policy.max_total_bytes
        (within_limits policy later)) + estimate_item_size to_json content_len item ≤
      policy.max_total_bytes

/-- All messages with a text of the user are left, in their order. -/
def keeps_user_text (items kept : List (ResponseItem β)) : Prop :=
  kept.filter has_user_text = items.filter has_user_text

/-- The cleanup with the retention policy, the one without it and the pruning of borrowed items all
leave the texts of the user. -/
structure UserTextSurvives (policy : RetentionPolicy) (items : List (ResponseItem β)) : Prop where
  retained : keeps_user_text items
    (cleanup_old_status_items to_json content_len true policy items)
  cleaned : keeps_user_text items
    (cleanup_old_status_items to_json content_len false policy items)
  pruned : keeps_user_text items (prune_history_items items).1

theorem is_api_message_of_user_text {item : ResponseItem β} (h : has_user_text item = true) :
    resume.is_api_message item = true := by
  cases item with
  | Message id role content end_turn phase =>
    simp only [has_user_text, of_user, Bool.and_eq_true, decide_eq_true_eq] at h
    obtain ⟨rfl, -⟩ := h
    rfl
  | _ => cases h

/-- What is no message for the model is no text of the user. -/
theorem keeps_user_text_api (items kept : List (ResponseItem β)) :
    keeps_user_text items (kept.filter resume.is_api_message) ↔ keeps_user_text items kept := by
  have hsame : (kept.filter resume.is_api_message).filter has_user_text =
      kept.filter has_user_text := by
    rw [List.filter_filter]
    apply List.filter_congr
    intro item _
    cases htext : has_user_text item with
    | false => rfl
    | true => exact is_api_message_of_user_text htext
  unfold keeps_user_text
  rw [hsame]

theorem pruning_keeps_user_text_iff (items : List (ResponseItem β)) :
    keeps_user_text items (prune_history_items items).1 ↔
      ∀ i item, items[i]? = some item → has_user_text item = true → stays items i item := by
  rw [keeps_user_text, prune_history_items_fst, filter_keep_at_iff]
  apply forall_congr'
  intro i
  apply forall_congr'
  intro item
  refine imp_congr_right fun hi => imp_congr_right fun _ => ?_
  exact keep_iff hi

theorem retention_keeps_user_text_iff (policy : RetentionPolicy) (items : List (ResponseItem β)) :
    keeps_user_text items (apply_retention_policy_owned to_json content_len items policy).1 ↔
      ∀ i item, items[i]? = some item → has_user_text item = true →
        spared to_json content_len policy (items.drop (i + 1)) item := by
  rw [keeps_user_text, apply_retention_policy_owned_fst]
  apply filter_fitting_latest_iff

/-- The texts of the user survive just where each message that has one is let through by the limits
and the budget, and stays in the scan. -/
theorem user_text_survives_iff (policy : RetentionPolicy) (items : List (ResponseItem β)) :
    UserTextSurvives to_json content_len policy items ↔
      ∀ i item, items[i]? = some item → has_user_text item = true →
        spared to_json content_len policy (items.drop (i + 1)) item ∧ stays items i item := by
  have hretained := retention_keeps_user_text_iff to_json content_len policy items
  have hpruned := pruning_keeps_user_text_iff items
  rw [← keeps_user_text_api] at hretained
  constructor
  · intro h i item hi htext
    exact ⟨hretained.mp h.retained i item hi htext, hpruned.mp h.pruned i item hi htext⟩
  · intro h
    have hstays := hpruned.mpr fun i item hi htext => (h i item hi htext).2
    refine ⟨hretained.mpr fun i item hi htext => (h i item hi htext).1, ?_, hstays⟩
    apply (keeps_user_text_api _ _).mpr
    rw [if_neg Bool.false_ne_true, prune_history_items_owned_fst, ← prune_history_items_fst]
    exact hstays

/-- A question of the user about a screenshot that comes with it. -/
def question (text : Text) : ResponseItem Unit :=
  .Message none "user".toList [.InputText text, .InputImage "data:image/png;base64,AAA".toList] none
    none

theorem question_with_screenshot_is_removed :
    ¬UserTextSurvives (fun _ => []) (fun _ => 0) .default
      [question "Explain this error".toList, question "And this one?".toList] := by
  intro h
  have hretained := congrArg List.length h.retained
  revert hretained
  decide

end Ecode.cleanup
