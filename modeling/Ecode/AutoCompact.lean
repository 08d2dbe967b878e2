-- The compaction of an Auto Drive conversation (code-auto-drive-core/src/auto_compact.rs): which
-- slice of it a summary stands for, and the goal that stays in front of it.
import Ecode.HistoryBridge
import Ecode.Turns

namespace Ecode.auto_compact

open compact pairing

variable {β : Type}

/-! ## The estimate -/

def BYTES_PER_TOKEN : Nat := 4

/-- How many bytes the data that an item carries counts for: a text its length, an image the tenth
part of its url, the texts of a reasoning their lengths; and the text that items are written as. -/
structure DataSizes (β : Type) where
  output_item : β → Nat
  summary : β → Nat
  content : β → Nat
  to_json : List β → Text

def content_size : ContentItem → Nat
  | .InputText text | .OutputText text => Text.len text
  | .InputImage image_url => Text.len image_url / 10

def byte_count (sizes : DataSizes β) : ResponseItem β → Nat
  | .Message _ _ content _ _ => (content.map content_size).sum
  | .FunctionCall _ name _ arguments _ => Text.len name + Text.len arguments
  | .FunctionCallOutput _ output =>
    match output.body with
    | .Text text => Text.len text
    | .ContentItems items => (items.map sizes.output_item).sum
  | .CustomToolCall _ _ _ name _ input => Text.len name + Text.len input
  | .CustomToolCallOutput _ _ output => Text.len (output.to_string sizes.to_json)
  | .Reasoning _ summary content _ => sizes.summary summary + (content.map sizes.content).getD 0
  | _ => 0

def estimate_item_tokens (sizes : DataSizes β) (item : ResponseItem β) : Nat :=
  (byte_count sizes item + (BYTES_PER_TOKEN - 1)) / BYTES_PER_TOKEN

/-! ## The slice -/

def is_user_message : ResponseItem β → Bool
  | .Message _ role _ _ _ => role == "user".toList
  | _ => false

/-- The first message of the user is the goal. -/
def goal_index (conversation : List (ResponseItem β)) : Option Nat :=
  conversation.findIdx? is_user_message

/-- The loop over the token counts: the first offset at which they reach the target. -/
def reach_target (target : Nat) : Nat → List Nat → Option Nat
  | _, [] => none
  | running, count :: counts =>
    if running + count ≥ target then some 0
    else (reach_target target (running + count) counts).map (· + 1)

def advance_to_turn_boundary (items : List (ResponseItem β)) (idx : Nat) : Nat :=
  if h : idx < items.length then
    if is_user_message items[idx] then idx else advance_to_turn_boundary items (idx + 1)
  else idx
termination_by items.length - idx

def find_midpoint (sizes : DataSizes β) (goal_idx : Nat) (after_goal : List (ResponseItem β)) :
    Nat :=
  let token_counts := after_goal.map (estimate_item_tokens sizes)
  let total_tokens := token_counts.sum
  if total_tokens > 0 then
    match reach_target ((total_tokens + 1) / 2) 0 token_counts with
    | some offset => goal_idx + 1 + offset
    | none => goal_idx + 1
  else goal_idx + 1 + (after_goal.length + 1) / 2

def compute_slice_bounds (sizes : DataSizes β) (conversation : List (ResponseItem β)) :
    Option (Nat × Nat) := do
  let goal_idx ← goal_index conversation
  if conversation.length ≤ goal_idx + 3 then none
  else
    let midpoint := find_midpoint sizes goal_idx (conversation.drop (goal_idx + 1))
    let slice_start := goal_idx + 1
    let slice_end := advance_to_turn_boundary conversation (midpoint + 1)
    if slice_end ≤ slice_start then none else some (slice_start, slice_end)

/-- The message of the summary before this one, when there is one. -/
def prev_summary_messages (prev_summary_text : Option Text) : List (ResponseItem β) :=
  match prev_summary_text.filter fun text => ¬ Text.trim text = [] with
  | some prev_text => [make_compaction_summary_message [] prev_text]
  | none => []

/-- `apply_compaction`: the conversation after it, which stays as it is when there is none. -/
def apply_compaction (conversation : List (ResponseItem β)) (bounds : Nat × Nat)
    (prev_summary_text : Option Text) (summary_message : ResponseItem β) :
    Option (List (ResponseItem β)) := do
  let goal_idx ← goal_index conversation
  if bounds.1 ≤ goal_idx ∨ bounds.2 > conversation.length then none
  else
    some (conversation.take (goal_idx + 1) ++ prev_summary_messages prev_summary_text ++
      [summary_message] ++ conversation.drop bounds.2)

/-! ## The goal after a compaction elsewhere -/

def message_text : ResponseItem β → Option Text
  | .Message _ _ content _ _ => do
    let text ← content_items_to_text content
    let trimmed := Text.trim text
    if trimmed = [] then none else some trimmed
  | _ => none

def has_goal (goal_text : Text) (item : ResponseItem β) : Bool :=
  is_user_message item && message_text item == some goal_text

/-- `ensure_goal_is_present`. There is no conversation when a cut panics. -/
def ensure_goal_is_present (to_json : List β → Text) (conversation : List (ResponseItem β))
    (goal_item : ResponseItem β) (original_idx : Nat) : Option (List (ResponseItem β)) := do
  let goal_items ← sanitize_items_for_compact to_json [goal_item]
  match goal_items.head? with
  | none => some conversation
  | some goal_item =>
    match message_text goal_item with
    | none => some conversation
    | some goal_text =>
      if conversation.any (has_goal goal_text) then some conversation
      else some (conversation.insertIdx (min original_idx conversation.length) goal_item)

/-! ## What the bounds are -/

/-- The target is reached within the counts, as it is no more than their sum. -/
theorem reach_target_lt {target running : Nat} {counts : List Nat}
    (hne : counts ≠ []) (h : target ≤ running + counts.sum) :
    ∃ offset < counts.length, reach_target target running counts = some offset := by
  induction counts generalizing running with
  | nil => exact absurd rfl hne
  | cons count counts ih =>
    unfold reach_target
    by_cases hreached : running + count ≥ target
    · exact ⟨0, by simp, if_pos hreached⟩
    · rw [if_neg hreached]
      rw [List.sum_cons] at h
      have hrest : counts ≠ [] := by
        rintro rfl
        simp at h
        omega
      have hsum : target ≤ running + count + counts.sum := by omega
      obtain ⟨offset, hlt, hoffset⟩ := ih hrest hsum
      exact ⟨offset + 1, by simpa using hlt, by rw [hoffset]; rfl⟩

/-- The midpoint stands after the goal and is one of the items. -/
theorem find_midpoint_bounds (sizes : DataSizes β) (goal_idx : Nat)
    {after_goal : List (ResponseItem β)} (h : 3 ≤ after_goal.length) :
    goal_idx < find_midpoint sizes goal_idx after_goal ∧
      find_midpoint sizes goal_idx after_goal ≤ goal_idx + after_goal.length := by
  unfold find_midpoint
  dsimp only
  split_ifs with htotal
  · have hne : after_goal.map (estimate_item_tokens sizes) ≠ [] := by
      intro hnil
      simp [hnil] at htotal
    have htarget : ((after_goal.map (estimate_item_tokens sizes)).sum + 1) / 2 ≤
        0 + (after_goal.map (estimate_item_tokens sizes)).sum := by
      omega
    obtain ⟨offset, hlt, hoffset⟩ := reach_target_lt hne htarget
    rw [List.length_map] at hlt
    rw [hoffset]
    constructor <;> dsimp only <;> omega
  · omega

theorem advance_ge (items : List (ResponseItem β)) (idx : Nat) :
    idx ≤ advance_to_turn_boundary items idx := by
  fun_induction advance_to_turn_boundary items idx with
  | case1 => exact le_refl _
  | case2 idx _ _ ih => omega
  | case3 => exact le_refl _

theorem advance_le {items : List (ResponseItem β)} {idx : Nat} (h : idx ≤ items.length) :
    advance_to_turn_boundary items idx ≤ items.length := by
  fun_induction advance_to_turn_boundary items idx with
  | case1 => exact h
  | case2 idx hlt _ ih => exact ih hlt
  | case3 => exact h

/-- What stands at a boundary, when anything does, is a message of the user. -/
theorem advance_boundary (items : List (ResponseItem β)) (idx : Nat) {item : ResponseItem β}
    (h : items[advance_to_turn_boundary items idx]? = some item) : is_user_message item = true := by
  fun_induction advance_to_turn_boundary items idx with
  | case1 idx hlt huser =>
    rw [List.getElem?_eq_getElem hlt] at h
    obtain rfl := Option.some.inj h
    exact huser
  | case2 idx _ _ ih => exact ih h
  | case3 idx hge =>
    rw [List.getElem?_eq_none (Nat.le_of_not_lt hge)] at h
    cases h

/-- The bounds of a slice: it begins after the goal, holds an item, and ends at the end of the
conversation or where the user speaks. -/
structure SliceBounds (conversation : List (ResponseItem β)) (slice_start slice_end : Nat) :
    Prop where
  goal : goal_index conversation = some (slice_start - 1)
  after_goal : 0 < slice_start
  nonempty : slice_start < slice_end
  within : slice_end ≤ conversation.length
  boundary : ∀ item, conversation[slice_end]? = some item → is_user_message item = true

theorem compute_slice_bounds_spec {sizes : DataSizes β} {conversation : List (ResponseItem β)}
    {slice_start slice_end : Nat}
    (h : compute_slice_bounds sizes conversation = some (slice_start, slice_end)) :
    SliceBounds conversation slice_start slice_end := by
  obtain ⟨goal_idx, hgoal, h⟩ := Option.bind_eq_some_iff.mp h
  dsimp only at h
  split_ifs at h with hshort hempty
  obtain ⟨rfl, rfl⟩ := Prod.mk.inj (Option.some.inj h)
  have hlen : 3 ≤ (conversation.drop (goal_idx + 1)).length := by
    rw [List.length_drop]
    omega
  have hmid := find_midpoint_bounds sizes goal_idx hlen
  rw [List.length_drop] at hmid
  refine ⟨hgoal, Nat.succ_pos _, by omega, advance_le (by omega), ?_⟩
  intro item hitem
  exact advance_boundary _ _ hitem

/-! ## What a compaction keeps -/

/-- What `ensure_goal_is_present` gives: the conversation, or an item more. -/
theorem ensure_goal_cases {to_json : List β → Text} {conversation kept : List (ResponseItem β)}
    {goal_item : ResponseItem β} {original_idx : Nat}
    (h : ensure_goal_is_present to_json conversation goal_item original_idx = some kept) :
    kept = conversation ∨ ∃ idx item, kept = conversation.insertIdx idx item := by
  obtain ⟨goal_items, -, h⟩ := Option.bind_eq_some_iff.mp h
  split at h
  · exact .inl (Option.some.inj h).symm
  · split at h
    · exact .inl (Option.some.inj h).symm
    · split_ifs at h
      · exact .inl (Option.some.inj h).symm
      · exact .inr ⟨_, _, (Option.some.inj h).symm⟩

/-- A goal with a text is put in where no message of the user has this text. -/
theorem ensure_goal_text {to_json : List β → Text} {conversation : List (ResponseItem β)}
    {goal_item sanitized : ResponseItem β} {goal_text : Text}
    (hsanitized : sanitize_items_for_compact to_json [goal_item] = some [sanitized])
    (htext : message_text sanitized = some goal_text) (original_idx : Nat) :
    ensure_goal_is_present to_json conversation goal_item original_idx =
      if conversation.any (has_goal goal_text) then some conversation
      else some (conversation.insertIdx (min original_idx conversation.length) sanitized) := by
  unfold ensure_goal_is_present
  rw [hsanitized]
  simp [htext]

/-- A goal that has a text is in the conversation after `ensure_goal_is_present`, as an item of
its own where no message of the user has this text, and everything else is as it was. -/
theorem goal_is_present {to_json : List β → Text} {conversation kept : List (ResponseItem β)}
    {goal_item : ResponseItem β} {original_idx : Nat}
    (h : ensure_goal_is_present to_json conversation goal_item original_idx = some kept) :
    conversation.Sublist kept ∧
      ∀ sanitized goal_text, sanitize_items_for_compact to_json [goal_item] = some [sanitized] →
        message_text sanitized = some goal_text → is_user_message sanitized = true →
        ∃ item ∈ kept, has_goal goal_text item = true := by
  constructor
  · rcases ensure_goal_cases h with rfl | ⟨idx, item, rfl⟩
    · exact List.Sublist.refl _
    · exact List.sublist_insertIdx _ _ _
  · intro sanitized goal_text hsanitized htext huser
    rw [ensure_goal_text hsanitized htext] at h
    split_ifs at h with hpresent
    · obtain rfl := Option.some.inj h
      exact List.any_eq_true.mp hpresent
    · obtain rfl := Option.some.inj h
      refine ⟨sanitized, (List.mem_insertIdx (min_le_right _ _)).mpr (.inl rfl), ?_⟩
      simp [has_goal, huser, htext]

theorem apply_compaction_keeps {conversation : List (ResponseItem β)}
    {slice_start slice_end : Nat} (h : SliceBounds conversation slice_start slice_end)
    (prev_summary_text : Option Text) (summary_message : ResponseItem β) :
    apply_compaction conversation (slice_start, slice_end) prev_summary_text summary_message =
      some (conversation.take slice_start ++
        (prev_summary_messages prev_summary_text ++ [summary_message]) ++
        conversation.drop slice_end) := by
  obtain ⟨goal_idx, rfl⟩ := Nat.exists_eq_add_one_of_ne_zero h.after_goal.ne'
  unfold apply_compaction
  rw [h.goal]
  simpa using h.within

theorem summary_is_no_output (snippets : List CompactionSnippet) (summary_text : Text) :
    pruned_id (make_compaction_summary_message snippets summary_text : ResponseItem β) = none := rfl

theorem prev_summary_is_no_output (prev_summary_text : Option Text) :
    ∀ item ∈ (prev_summary_messages prev_summary_text : List (ResponseItem β)),
      pruned_id item = none := by
  unfold prev_summary_messages
  split
  · intro item hitem
    obtain rfl := List.mem_singleton.mp hitem
    exact summary_is_no_output _ _
  · simp

theorem user_message_is_no_output (item : ResponseItem β) (h : is_user_message item = true) :
    pruned_id item = none := by
  cases item with
  | Message => rfl
  | _ => cases h

/-- The messages that stand for the slice come between two parts that are paired. -/
theorem compacted_paired {conversation : List (ResponseItem β)} {slice_start slice_end : Nat}
    (h : SliceBounds conversation slice_start slice_end)
    (hpaired : TurnPaired call_ids pruned_id is_user_message conversation)
    {messages : List (ResponseItem β)} (hmessages : ∀ item ∈ messages, pruned_id item = none) :
    TurnPaired call_ids pruned_id is_user_message
      (conversation.take slice_start ++ messages ++ conversation.drop slice_end) := by
  apply TurnPaired.append
  · exact (hpaired.take slice_start).append (.of_no_outputs hmessages)
  · exact hpaired.drop user_message_is_no_output h.boundary

/-- For every conversation with a slice: the goal stands before it, it holds an item, and it ends
at the end of the conversation or where the user speaks; a compaction keeps what stands before
the slice and what stands from its end on; and where every tool output follows its call in the same
turn of the user, every tool output follows its call after the compaction. -/
theorem compaction_keeps_goal_bounds_and_pairs {sizes : DataSizes β}
    {conversation : List (ResponseItem β)} {slice_start slice_end : Nat}
    (h : compute_slice_bounds sizes conversation = some (slice_start, slice_end)) :
    (∃ goal_idx, goal_index conversation = some goal_idx ∧ goal_idx < slice_start) ∧
    (slice_start < slice_end ∧ slice_end ≤ conversation.length) ∧
    (slice_end = conversation.length ∨
      ∃ item, conversation[slice_end]? = some item ∧ is_user_message item = true) ∧
    (∀ prev_summary_text summary_message,
      apply_compaction conversation (slice_start, slice_end) prev_summary_text summary_message =
        some (conversation.take slice_start ++
          (prev_summary_messages prev_summary_text ++ [summary_message]) ++
          conversation.drop slice_end)) ∧
    (TurnPaired call_ids pruned_id is_user_message conversation →
      ∀ prev_summary_text snippets summary_text compacted,
        apply_compaction conversation (slice_start, slice_end) prev_summary_text
          (make_compaction_summary_message snippets summary_text) = some compacted →
        Paired call_ids pruned_id compacted) := by
  have hbounds := compute_slice_bounds_spec h
  refine ⟨⟨_, hbounds.goal, ?_⟩, ⟨hbounds.nonempty, hbounds.within⟩, ?_,
    apply_compaction_keeps hbounds, ?_⟩
  · have hpos := hbounds.after_goal
    omega
  · rcases hbounds.within.eq_or_lt with heq | hlt
    · exact .inl heq
    · have hitem := List.getElem?_eq_getElem hlt
      exact .inr ⟨_, hitem, hbounds.boundary _ hitem⟩
  · intro hpaired prev_summary_text snippets summary_text compacted hcompacted
    rw [apply_compaction_keeps hbounds] at hcompacted
    obtain rfl := Option.some.inj hcompacted
    apply TurnPaired.paired
    apply compacted_paired hbounds hpaired
    intro item hitem
    rcases List.mem_append.mp hitem with hprev | hsummary
    · exact prev_summary_is_no_output _ item hprev
    · obtain rfl := List.mem_singleton.mp hsummary
      exact summary_is_no_output snippets summary_text

/-- A goal, a turn with a tool call, and two more turns. -/
def four_turns : List (ResponseItem Unit) :=
  [.Message none "user".toList [.InputText "Goal".toList] none none,
    .FunctionCall none "shell".toList none "ls".toList "call-1".toList,
    .FunctionCallOutput "call-1".toList (.from_text "src".toList),
    .Message none "user".toList [.InputText "Step 2".toList] none none,
    .Message none "user".toList [.InputText "Step 3".toList] none none]

def no_data : DataSizes Unit := ⟨fun _ => 0, fun _ => 0, fun _ => 0, fun _ => []⟩

theorem four_turns_paired : TurnPaired call_ids pruned_id is_user_message four_turns := by
  intro i item c hi hout
  obtain rfl : i = 2 := by
    rcases i with _ | _ | _ | _ | _ | i <;> simp [four_turns] at hi
    · subst hi; cases hout
    · subst hi; cases hout
    · rfl
    · subst hi; cases hout
    · subst hi; cases hout
  obtain rfl := Option.some.inj hi
  obtain rfl := Option.some.inj hout
  refine ⟨1, _, by omega, rfl, List.mem_singleton.mpr rfl, ?_⟩
  intro k x hk hki
  omega

/-- Without data the first two turns are the slice. -/
theorem four_turns_compacted :
    goal_index four_turns = some 0 ∧ ∃ compacted,
      apply_compaction four_turns (1, 4) none
        (make_compaction_summary_message [] "Done".toList) = some compacted ∧
      compacted.length = 3 ∧ Paired call_ids pruned_id compacted := by
  have hbounds : compute_slice_bounds no_data four_turns = some (1, 4) := by decide +kernel
  obtain ⟨⟨goal_idx, hgoal, hlt⟩, -, -, hkept, hpaired⟩ :=
    compaction_keeps_goal_bounds_and_pairs hbounds
  obtain rfl : goal_idx = 0 := by omega
  exact ⟨hgoal, _, hkept none _, rfl, hpaired four_turns_paired none _ _ _ (hkept none _)⟩

end Ecode.auto_compact
