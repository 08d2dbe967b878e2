-- What is kept of the history of a conversation (core/src/retention.rs): the limits for each
-- kind of item, the budget in bytes, and the two versions of the pass over the items.
import Ecode.ResponseItems
import Ecode.Retaining

namespace Ecode.retention

open retaining

variable {β : Type}

/-! ## The kinds of items -/

structure RetentionPolicy where
  max_env_deltas : Nat
  max_browser_snapshots : Nat
  max_total_bytes : Nat
  keep_latest_baseline : Bool
  deriving DecidableEq, Repr

/-- `RetentionPolicy::default`. -/
def RetentionPolicy.default : RetentionPolicy := ⟨3, 2, 100 * 1024, true⟩

structure RetentionStats where
  removed_env_baselines : Nat := 0
  removed_env_deltas : Nat := 0
  removed_browser_snapshots : Nat := 0
  removed_screenshots : Nat := 0
  removed_status : Nat := 0
  kept_env_deltas : Nat := 0
  kept_browser_snapshots : Nat := 0
  kept_recent_screenshots : Nat := 0
  bytes_removed : Nat := 0
  bytes_kept : Nat := 0
  dropped_for_budget : Nat := 0
  deriving DecidableEq, Repr

inductive ItemCategory where
  | RealUserMessage
  | StatusMessage
  | EnvBaseline
  | EnvDelta
  | BrowserSnapshot
  | Screenshot
  | Other
  deriving DecidableEq, Repr

def ENV_CTX_OPEN : Text := "<environment_context>".toList

def ENV_CTX_DELTA_OPEN : Text := "<environment_context_delta>".toList

def BROWSER_SNAPSHOT_OPEN : Text := "<browser_snapshot>".toList

/-- One of the input texts of a message meets the test. -/
def any_input_text (content : List ContentItem) (test : Text → Bool) : Bool :=
  content.any fun c =>
    match c with
    | .InputText text => test text
    | _ => false

def is_status_text (text : Text) : Bool :=
  Text.contains text "== System Status ==".toList ||
    Text.contains text "Current working directory:".toList ||
    Text.contains text "Git branch:".toList

def is_image : ContentItem → Bool
  | .InputImage _ => true
  | _ => false

def is_real_text (text : Text) : Bool :=
  !is_status_text text && !(Text.trim text).isEmpty && !Text.contains text ENV_CTX_OPEN &&
    !Text.contains text ENV_CTX_DELTA_OPEN && !Text.contains text BROWSER_SNAPSHOT_OPEN

def categorize_item : ResponseItem β → ItemCategory
  | .Message _ role content _ _ =>
    if role ≠ "user".toList then .Other
    else if any_input_text content fun text =>
      Text.contains text ENV_CTX_OPEN && !Text.contains text ENV_CTX_DELTA_OPEN then .EnvBaseline
    else if any_input_text content fun text => Text.contains text ENV_CTX_DELTA_OPEN then .EnvDelta
    else if any_input_text content fun text =>
      Text.contains text BROWSER_SNAPSHOT_OPEN then .BrowserSnapshot
    else if any_input_text content is_status_text then .StatusMessage
    else if content.any is_image then .Screenshot
    else if any_input_text content is_real_text then .RealUserMessage
    else .StatusMessage
  | _ => .Other

-- How an output prints its items, and how many entries the content of a reasoning has.
variable (to_json : List β → Text) (content_len : β → Nat)

-- The sums of sizes of texts in memory stay below `usize::MAX`: sizes are numbers.
def ContentItem.size : ContentItem → Nat
  | .InputText text => Text.len text
  | .OutputText text => Text.len text
  | .InputImage image_url => Text.len image_url

def estimate_item_size : ResponseItem β → Nat
  | .Message _ _ content _ _ => (content.map ContentItem.size).sum
  | .FunctionCall _ _ _ arguments _ => Text.len arguments
  | .FunctionCallOutput _ output => Text.len (output.to_string to_json)
  | .CustomToolCall _ _ _ _ _ input => Text.len input
  | .CustomToolCallOutput _ _ output => Text.len (output.to_string to_json)
  | .Reasoning _ _ content _ => (content.map content_len).getD 0
  | _ => 0

structure CategorizedItem (β : Type) where
  item : ResponseItem β
  category : ItemCategory
  size_bytes : Nat
  index : Nat

def CategorizedItem.new (item : ResponseItem β) (index : Nat) : CategorizedItem β where
  item := item
  category := categorize_item item
  size_bytes := estimate_item_size to_json content_len item
  index := index

def categorized (items : List (ResponseItem β)) : List (CategorizedItem β) :=
  items.zipIdx.map fun p => .new to_json content_len p.1 p.2

/-! ## The items of each kind -/

structure Separated (β : Type) where
  env_baselines : List (CategorizedItem β) := []
  env_deltas : List (CategorizedItem β) := []
  browser_snapshots : List (CategorizedItem β) := []
  screenshots : List (CategorizedItem β) := []
  status_messages : List (CategorizedItem β) := []
  other_items : List (CategorizedItem β) := []

def Separated.push (lists : Separated β) (item : CategorizedItem β) : Separated β :=
  match item.category with
  | .EnvBaseline => { lists with env_baselines := lists.env_baselines ++ [item] }
  | .EnvDelta => { lists with env_deltas := lists.env_deltas ++ [item] }
  | .BrowserSnapshot => { lists with browser_snapshots := lists.browser_snapshots ++ [item] }
  | .Screenshot => { lists with screenshots := lists.screenshots ++ [item] }
  | .StatusMessage => { lists with status_messages := lists.status_messages ++ [item] }
  | _ => { lists with other_items := lists.other_items ++ [item] }

def separate (categorized : List (CategorizedItem β)) : Separated β :=
  categorized.foldl Separated.push {}

/-! ## Keeping and removing -/

section
variable {K : Type} (as_kept : CategorizedItem β → K)

/-- Every item is kept, and its size counted. -/
def keep_all (items : List (CategorizedItem β)) (s : List K × RetentionStats) :
    List K × RetentionStats :=
  items.foldl (fun s item =>
    (s.1 ++ [as_kept item], { s.2 with bytes_kept := s.2.bytes_kept + item.size_bytes })) s

end

/-- Every item is removed, and counted as `count` does. -/
def remove_all (count : RetentionStats → RetentionStats) (items : List (CategorizedItem β))
    (stats : RetentionStats) : RetentionStats :=
  items.foldl (fun stats item =>
    { count stats with bytes_removed := stats.bytes_removed + item.size_bytes }) stats

def baseline_removed (stats : RetentionStats) : RetentionStats :=
  { stats with removed_env_baselines := stats.removed_env_baselines + 1 }

def status_removed (stats : RetentionStats) : RetentionStats :=
  { stats with removed_status := stats.removed_status + 1 }

def screenshot_removed (stats : RetentionStats) : RetentionStats :=
  { stats with removed_screenshots := stats.removed_screenshots + 1 }

def deltas_removed (n : Nat) (stats : RetentionStats) : RetentionStats :=
  { stats with removed_env_deltas := stats.removed_env_deltas + n }

def deltas_kept (n : Nat) (stats : RetentionStats) : RetentionStats :=
  { stats with kept_env_deltas := n }

def snapshots_removed (n : Nat) (stats : RetentionStats) : RetentionStats :=
  { stats with removed_browser_snapshots := stats.removed_browser_snapshots + n }

def snapshots_kept (n : Nat) (stats : RetentionStats) : RetentionStats :=
  { stats with kept_browser_snapshots := n }

def screenshot_kept (stats : RetentionStats) : RetentionStats :=
  { stats with kept_recent_screenshots := 1 }

def budget_dropped (size : Nat) (stats : RetentionStats) : RetentionStats :=
  { stats with
    dropped_for_budget := stats.dropped_for_budget + 1
    bytes_removed := stats.bytes_removed + size
    bytes_kept := stats.bytes_kept - size }

/-! ## The pass over borrowed items -/

namespace borrowed

/-- The items that are kept, with their indices, and the statistics. -/
abbrev Kept (β : Type) := List (Nat × ResponseItem β) × RetentionStats

def indexed (item : CategorizedItem β) : Nat × ResponseItem β := (item.index, item.item)

def keep_latest_baseline (policy : RetentionPolicy) (env_baselines : List (CategorizedItem β))
    (s : Kept β) : Kept β :=
  if policy.keep_latest_baseline && !env_baselines.isEmpty then
    let s := keep_all indexed env_baselines.getLast?.toList s
    (s.1, remove_all baseline_removed env_baselines.dropLast s.2)
  else (s.1, remove_all baseline_removed env_baselines s.2)

/-- The last deltas or browser snapshots are kept. -/
def keep_last (limit : Nat) (removed kept : Nat → RetentionStats → RetentionStats)
    (items : List (CategorizedItem β)) (s : Kept β) : Kept β :=
  let (to_keep, stats) :=
    if items.length ≤ limit then (items, s.2)
    else
      let to_drop := items.length - limit
      (items.drop to_drop, remove_all id (items.take to_drop) (removed to_drop s.2))
  keep_all indexed to_keep (s.1, kept to_keep.length stats)

def keep_latest_screenshot (screenshots : List (CategorizedItem β)) (s : Kept β) : Kept β :=
  if !screenshots.isEmpty then
    let s := keep_all indexed screenshots.getLast?.toList (s.1, screenshot_kept s.2)
    (s.1, remove_all screenshot_removed screenshots.dropLast s.2)
  else s

/-- The items that the limits let through. -/
def limited (policy : RetentionPolicy) (lists : Separated β) : Kept β :=
  let s := keep_all indexed lists.other_items ([], {})
  let s := keep_latest_baseline policy lists.env_baselines s
  let s := keep_last policy.max_env_deltas deltas_removed deltas_kept lists.env_deltas s
  let s := keep_last policy.max_browser_snapshots snapshots_removed snapshots_kept
    lists.browser_snapshots s
  let s := (s.1, remove_all status_removed lists.status_messages s.2)
  keep_latest_screenshot lists.screenshots s

/-- One turn of the loop over the kept items, from the last one on. -/
def budget_step (max_total_bytes : Nat) :
    Nat × List (Nat × ResponseItem β) × RetentionStats → Nat × ResponseItem β →
      Nat × List (Nat × ResponseItem β) × RetentionStats
  | (cumulative_bytes, final_items, stats), (idx, item) =>
    let item_size := estimate_item_size to_json content_len item
    if cumulative_bytes + item_size ≤ max_total_bytes then
      (cumulative_bytes + item_size, final_items ++ [(idx, item)], stats)
    else (cumulative_bytes, final_items, budget_dropped item_size stats)

def sort_by_index (kept_items : List (Nat × ResponseItem β)) : List (Nat × ResponseItem β) :=
  kept_items.insertionSort (fun a b => a.1 ≤ b.1)

def fit_budget (policy : RetentionPolicy) (s : Kept β) : Kept β :=
  if policy.max_total_bytes < s.2.bytes_kept then
    let (_, final_items, stats) := (sort_by_index s.1).reverse.foldl
      (budget_step to_json content_len policy.max_total_bytes) (0, [], s.2)
    (sort_by_index final_items, stats)
  else (sort_by_index s.1, s.2)

end borrowed

def apply_retention_policy (items : List (ResponseItem β)) (policy : RetentionPolicy) :
    List (ResponseItem β) × RetentionStats :=
  let s := borrowed.limited policy (separate (categorized to_json content_len items))
  let s := borrowed.fit_budget to_json content_len policy s
  (s.1.map Prod.snd, s.2)

/-! ## The pass over owned items -/

namespace owned

abbrev Kept (β : Type) := List (CategorizedItem β) × RetentionStats

def keep_latest_baseline (policy : RetentionPolicy) (env_baselines : List (CategorizedItem β))
    (s : Kept β) : Kept β :=
  if policy.keep_latest_baseline then
    match env_baselines.getLast? with
    | some latest =>
      let s := keep_all id [latest] s
      (s.1, remove_all baseline_removed env_baselines.dropLast s.2)
    | none => (s.1, remove_all baseline_removed env_baselines s.2)
  else (s.1, remove_all baseline_removed env_baselines s.2)

/-- The first deltas or browser snapshots are drained, the others are kept. -/
def keep_last (limit : Nat) (removed kept : Nat → RetentionStats → RetentionStats)
    (items : List (CategorizedItem β)) (s : Kept β) : Kept β :=
  let (items, stats) :=
    if limit < items.length then
      let to_drop := items.length - limit
      (items.drop to_drop, remove_all id (items.take to_drop) (removed to_drop s.2))
    else (items, s.2)
  keep_all id items (s.1, kept items.length stats)

def keep_latest_screenshot (screenshots : List (CategorizedItem β)) (s : Kept β) : Kept β :=
  match screenshots.getLast? with
  | some latest =>
    let s := keep_all id [latest] (s.1, screenshot_kept s.2)
    (s.1, remove_all screenshot_removed screenshots.dropLast s.2)
  | none => s

/-- The items that the limits let through. -/
def limited (policy : RetentionPolicy) (lists : Separated β) : Kept β :=
  let s := keep_all id lists.other_items ([], {})
  let s := keep_latest_baseline policy lists.env_baselines s
  let s := keep_last policy.max_env_deltas deltas_removed deltas_kept lists.env_deltas s
  let s := keep_last policy.max_browser_snapshots snapshots_removed snapshots_kept
    lists.browser_snapshots s
  let s := (s.1, remove_all status_removed lists.status_messages s.2)
  keep_latest_screenshot lists.screenshots s

/-- One turn of the loop over the kept items, from the last one on. The bytes that are kept are
counted beside the statistics. -/
def budget_step (max_total_bytes : Nat) :
    Nat × List (CategorizedItem β) × RetentionStats × Nat → CategorizedItem β →
      Nat × List (CategorizedItem β) × RetentionStats × Nat
  | (cumulative_bytes, final_items, stats, bytes_kept), item =>
    if cumulative_bytes + item.size_bytes ≤ max_total_bytes then
      (cumulative_bytes + item.size_bytes, final_items ++ [item], stats, bytes_kept)
    else
      (cumulative_bytes, final_items,
        { stats with
          dropped_for_budget := stats.dropped_for_budget + 1
          bytes_removed := stats.bytes_removed + item.size_bytes },
        bytes_kept - item.size_bytes)

def sort_by_index (kept : List (CategorizedItem β)) : List (CategorizedItem β) :=
  kept.insertionSort (fun a b => a.index ≤ b.index)

def fit_budget (policy : RetentionPolicy) (s : Kept β) : Kept β :=
  let kept := sort_by_index s.1
  if policy.max_total_bytes < s.2.bytes_kept then
    let (_, final_items, stats, bytes_kept) := kept.reverse.foldl
      (budget_step policy.max_total_bytes) (0, [], s.2, s.2.bytes_kept)
    (sort_by_index final_items, { stats with bytes_kept := bytes_kept })
  else (kept, s.2)

end owned

def apply_retention_policy_owned (items : List (ResponseItem β)) (policy : RetentionPolicy) :
    List (ResponseItem β) × RetentionStats :=
  let s := owned.limited policy (separate (categorized to_json content_len items))
  let s := owned.fit_budget policy s
  (s.1.map CategorizedItem.item, s.2)

/-! ## One pass is the other -/

theorem keep_all_eq {K : Type} (as_kept : CategorizedItem β → K) (items : List (CategorizedItem β))
    (s : List K × RetentionStats) :
    keep_all as_kept items s = (s.1 ++ items.map as_kept,
      { s.2 with bytes_kept := s.2.bytes_kept + total CategorizedItem.size_bytes items }) := by
  unfold keep_all
  induction items generalizing s with
  | nil => simp [total]
  | cons item items ih =>
    rw [List.foldl_cons, ih]
    simp [total, Nat.add_assoc]

namespace borrowed

/-- What the pass over owned items keeps, as the other one holds it. -/
def as_indexed (s : owned.Kept β) : Kept β := (s.1.map indexed, s.2)

theorem keep_all_indexed (items : List (CategorizedItem β)) (s : owned.Kept β) :
    keep_all indexed items (as_indexed s) = as_indexed (keep_all id items s) := by
  simp [keep_all_eq, as_indexed]

theorem keep_latest_baseline_indexed (policy : RetentionPolicy)
    (env_baselines : List (CategorizedItem β)) (s : owned.Kept β) :
    keep_latest_baseline policy env_baselines (as_indexed s) =
      as_indexed (owned.keep_latest_baseline policy env_baselines s) := by
  unfold keep_latest_baseline owned.keep_latest_baseline
  cases policy.keep_latest_baseline with
  | false => rfl
  | true =>
    rcases hlast : env_baselines.getLast? with _ | latest
    · obtain rfl := List.getLast?_eq_none_iff.mp hlast
      rfl
    · have hne : env_baselines.isEmpty = false := by
        cases env_baselines with
        | nil => cases hlast
        | cons => rfl
      rw [hne, Option.toList_some, keep_all_indexed]
      rfl

theorem keep_last_indexed (limit : Nat) (removed kept : Nat → RetentionStats → RetentionStats)
    (items : List (CategorizedItem β)) (s : owned.Kept β) :
    keep_last limit removed kept items (as_indexed s) =
      as_indexed (owned.keep_last limit removed kept items s) := by
  unfold keep_last owned.keep_last
  by_cases hle : items.length ≤ limit
  · rw [if_pos hle, if_neg (Nat.not_lt.mpr hle)]
    exact keep_all_indexed items (s.1, kept items.length s.2)
  · rw [if_neg hle, if_pos (Nat.not_le.mp hle)]
    exact keep_all_indexed (items.drop (items.length - limit))
      (s.1, kept _ (remove_all id _ (removed _ s.2)))

theorem keep_latest_screenshot_indexed (screenshots : List (CategorizedItem β))
    (s : owned.Kept β) : keep_latest_screenshot screenshots (as_indexed s) =
      as_indexed (owned.keep_latest_screenshot screenshots s) := by
  unfold keep_latest_screenshot owned.keep_latest_screenshot
  rcases hlast : screenshots.getLast? with _ | latest
  · obtain rfl := List.getLast?_eq_none_iff.mp hlast
    rfl
  · have hne : screenshots.isEmpty = false := by
      cases screenshots with
      | nil => cases hlast
      | cons => rfl
    have hkeep := keep_all_indexed [latest] (s.1, screenshot_kept s.2)
    simp only [hne, Bool.not_false, if_true, Option.toList_some]
    simp only [as_indexed] at hkeep ⊢
    rw [hkeep]

theorem limited_indexed (policy : RetentionPolicy) (lists : Separated β) :
    limited policy lists = as_indexed (owned.limited policy lists) := by
  unfold limited owned.limited
  have hstart : (([], {}) : Kept β) = as_indexed ([], {}) := rfl
  dsimp only
  rw [hstart, keep_all_indexed, keep_latest_baseline_indexed, keep_last_indexed, keep_last_indexed]
  rw [← keep_latest_screenshot_indexed]
  rfl

theorem sort_by_index_indexed (kept : List (CategorizedItem β)) :
    sort_by_index (kept.map indexed) = (owned.sort_by_index kept).map indexed := by
  unfold sort_by_index owned.sort_by_index
  exact (List.map_insertionSort _ _ indexed kept fun a _ b _ => Iff.rfl).symm

/-- The state of one loop as the other one holds it: the count of bytes stands in the
statistics. -/
def as_budget (s : Nat × List (CategorizedItem β) × RetentionStats × Nat) :
    Nat × List (Nat × ResponseItem β) × RetentionStats :=
  (s.1, s.2.1.map indexed, { s.2.2.1 with bytes_kept := s.2.2.2 })

theorem budget_step_indexed {item : CategorizedItem β}
    (hsize : estimate_item_size to_json content_len item.item = item.size_bytes) (max : Nat)
    (s : Nat × List (CategorizedItem β) × RetentionStats × Nat) :
    budget_step to_json content_len max (as_budget s) (indexed item) =
      as_budget (owned.budget_step max s item) := by
  obtain ⟨cumulative_bytes, final_items, stats, bytes_kept⟩ := s
  unfold budget_step owned.budget_step as_budget indexed
  simp only [hsize]
  split
  · simp
  · rfl

theorem budget_indexed {kept : List (CategorizedItem β)}
    (hsize : ∀ item ∈ kept, estimate_item_size to_json content_len item.item = item.size_bytes)
    (max : Nat) (s : Nat × List (CategorizedItem β) × RetentionStats × Nat) :
    (kept.map indexed).foldl (budget_step to_json content_len max) (as_budget s) =
      as_budget (kept.foldl (owned.budget_step max) s) := by
  induction kept generalizing s with
  | nil => rfl
  | cons item kept ih =>
    rw [List.map_cons, List.foldl_cons, List.foldl_cons,
      budget_step_indexed to_json content_len (hsize item List.mem_cons_self),
      ih fun item h => hsize item (List.mem_cons_of_mem _ h)]

theorem fit_budget_indexed (policy : RetentionPolicy) {s : owned.Kept β}
    (hsize : ∀ item ∈ s.1, estimate_item_size to_json content_len item.item = item.size_bytes) :
    fit_budget to_json content_len policy (as_indexed s) =
      as_indexed (owned.fit_budget policy s) := by
  have hsorted : ∀ item ∈ (owned.sort_by_index s.1).reverse,
      estimate_item_size to_json content_len item.item = item.size_bytes :=
    fun item h => hsize item ((List.perm_insertionSort _ _).subset (List.mem_reverse.mp h))
  unfold fit_budget owned.fit_budget
  simp only [as_indexed, sort_by_index_indexed]
  split
  · rw [← List.map_reverse]
    have hloop := budget_indexed to_json content_len hsorted policy.max_total_bytes
      (0, [], s.2, s.2.bytes_kept)
    rw [show as_budget (0, [], s.2, s.2.bytes_kept) = (0, ([] : List (Nat × ResponseItem β)), s.2)
      from rfl] at hloop
    rw [hloop]
    simp only [as_budget, sort_by_index_indexed]
  · rfl

end borrowed

/-! ## What the limits let through -/

/-- The list that items of a kind are put in: real messages are put with the others. -/
def list_of : ItemCategory → ItemCategory
  | .RealUserMessage => .Other
  | category => category

/-- How many of the last items of a list stay. -/
def limit (policy : RetentionPolicy) : ItemCategory → Option Nat
  | .EnvBaseline => some (if policy.keep_latest_baseline then 1 else 0)
  | .EnvDelta => some policy.max_env_deltas
  | .BrowserSnapshot => some policy.max_browser_snapshots
  | .Screenshot => some 1
  | .StatusMessage => some 0
  | .RealUserMessage => none
  | .Other => none

/-- The items that the limits let through, in their order. -/
def within_limits (policy : RetentionPolicy) (items : List (ResponseItem β)) :
    List (ResponseItem β) :=
  latest (fun item => list_of (categorize_item item)) (limit policy) items

/-- The items of one list. -/
def in_list (category : ItemCategory) (items : List (CategorizedItem β)) :
    List (CategorizedItem β) :=
  items.filter fun item => list_of item.category = category

theorem foldl_push_eq (items : List (CategorizedItem β)) (lists : Separated β) :
    items.foldl Separated.push lists =
      { env_baselines := lists.env_baselines ++ in_list .EnvBaseline items
        env_deltas := lists.env_deltas ++ in_list .EnvDelta items
        browser_snapshots := lists.browser_snapshots ++ in_list .BrowserSnapshot items
        screenshots := lists.screenshots ++ in_list .Screenshot items
        status_messages := lists.status_messages ++ in_list .StatusMessage items
        other_items := lists.other_items ++ in_list .Other items } := by
  induction items generalizing lists with
  | nil => simp [in_list]
  | cons item items ih =>
    rw [List.foldl_cons, ih]
    unfold Separated.push in_list
    cases hcategory : item.category <;> simp [list_of, hcategory]

theorem separate_eq (items : List (CategorizedItem β)) :
    separate items =
      { env_baselines := in_list .EnvBaseline items
        env_deltas := in_list .EnvDelta items
        browser_snapshots := in_list .BrowserSnapshot items
        screenshots := in_list .Screenshot items
        status_messages := in_list .StatusMessage items
        other_items := in_list .Other items } :=
  foldl_push_eq items {}

/-- The bytes that count as kept are those of the kept items. -/
def Measured (s : owned.Kept β) : Prop := s.2.bytes_kept = total CategorizedItem.size_bytes s.1

namespace owned

theorem remove_all_bytes_kept {count : RetentionStats → RetentionStats}
    (hcount : ∀ stats, (count stats).bytes_kept = stats.bytes_kept)
    (items : List (CategorizedItem β)) (stats : RetentionStats) :
    (remove_all count items stats).bytes_kept = stats.bytes_kept := by
  unfold remove_all
  induction items generalizing stats with
  | nil => rfl
  | cons item items ih =>
    rw [List.foldl_cons, ih]
    exact hcount stats

theorem keep_all_measured {items : List (CategorizedItem β)} {s : Kept β} (h : Measured s) :
    Measured (keep_all id items s) := by
  unfold Measured at h ⊢
  rw [keep_all_eq]
  simp only [List.map_id]
  rw [total_append, h]

theorem remove_all_measured (count : RetentionStats → RetentionStats)
    (hcount : ∀ stats, (count stats).bytes_kept = stats.bytes_kept)
    (items : List (CategorizedItem β)) {s : Kept β} (h : Measured s) :
    Measured (s.1, remove_all count items s.2) := by
  unfold Measured at h ⊢
  exact (remove_all_bytes_kept hcount items s.2).trans h

theorem getLast_toList {A : Type} (items : List A) :
    items.getLast?.toList = items.drop (items.length - 1) := by
  rcases List.eq_nil_or_concat items with rfl | ⟨items, item, rfl⟩
  · rfl
  · simp

theorem keep_latest_baseline_fst (policy : RetentionPolicy)
    (env_baselines : List (CategorizedItem β)) (s : Kept β) :
    (keep_latest_baseline policy env_baselines s).1 = s.1 ++
      env_baselines.drop (env_baselines.length - if policy.keep_latest_baseline then 1 else 0) := by
  unfold keep_latest_baseline
  cases policy.keep_latest_baseline with
  | false => simp
  | true =>
    rw [if_pos rfl, if_pos rfl, ← getLast_toList]
    rcases env_baselines.getLast? with _ | latest
    · simp
    · simp [keep_all_eq]

theorem keep_latest_baseline_measured {policy : RetentionPolicy}
    {env_baselines : List (CategorizedItem β)} {s : Kept β} (h : Measured s) :
    Measured (keep_latest_baseline policy env_baselines s) := by
  have hcount (stats : RetentionStats) : (baseline_removed stats).bytes_kept = stats.bytes_kept := rfl
  unfold keep_latest_baseline
  split
  · split
    · exact remove_all_measured baseline_removed hcount _ (keep_all_measured h)
    · exact remove_all_measured baseline_removed hcount _ h
  · exact remove_all_measured baseline_removed hcount _ h

theorem keep_last_fst (limit : Nat) (removed kept : Nat → RetentionStats → RetentionStats)
    (items : List (CategorizedItem β)) (s : Kept β) :
    (keep_last limit removed kept items s).1 = s.1 ++ items.drop (items.length - limit) := by
  unfold keep_last
  split
  next to_keep stats heq =>
    rw [keep_all_eq]
    simp only [List.map_id]
    split at heq
    · obtain ⟨rfl, -⟩ := Prod.mk.inj heq
      rfl
    · next hle =>
      obtain ⟨rfl, -⟩ := Prod.mk.inj heq
      rw [Nat.sub_eq_zero_of_le (Nat.not_lt.mp hle), List.drop_zero]

theorem keep_last_measured (limit : Nat) (removed kept : Nat → RetentionStats → RetentionStats)
    (hremoved : ∀ n stats, (removed n stats).bytes_kept = stats.bytes_kept)
    (hkept : ∀ n stats, (kept n stats).bytes_kept = stats.bytes_kept)
    (items : List (CategorizedItem β)) {s : Kept β} (h : Measured s) :
    Measured (keep_last limit removed kept items s) := by
  unfold keep_last
  split
  next to_keep stats heq =>
    refine keep_all_measured ?_
    have hstats : stats.bytes_kept = s.2.bytes_kept := by
      split at heq
      · obtain ⟨-, rfl⟩ := Prod.mk.inj heq
        exact (remove_all_bytes_kept (fun _ => rfl) _ _).trans (hremoved _ _)
      · obtain ⟨-, rfl⟩ := Prod.mk.inj heq
        rfl
    unfold Measured at h ⊢
    rw [hkept, hstats, h]

theorem keep_latest_screenshot_fst (screenshots : List (CategorizedItem β)) (s : Kept β) :
    (keep_latest_screenshot screenshots s).1 =
      s.1 ++ screenshots.drop (screenshots.length - 1) := by
  unfold keep_latest_screenshot
  rw [← getLast_toList]
  rcases screenshots.getLast? with _ | latest
  · simp
  · simp [keep_all_eq]

theorem keep_latest_screenshot_measured {screenshots : List (CategorizedItem β)} {s : Kept β}
    (h : Measured s) : Measured (keep_latest_screenshot screenshots s) := by
  unfold keep_latest_screenshot
  split
  · have hkeep : Measured (s.1, screenshot_kept s.2) := h
    exact remove_all_measured screenshot_removed (fun _ => rfl) _ (keep_all_measured hkeep)
  · exact h

/-- The lists that items are kept of. -/
def kept_lists : List ItemCategory := [.Other, .EnvBaseline, .EnvDelta, .BrowserSnapshot, .Screenshot]

/-- Of a list with a limit the last items are let through. -/
theorem in_list_latest {policy : RetentionPolicy} {c : ItemCategory} {n : Nat}
    (h : limit policy c = some n) (items : List (CategorizedItem β)) :
    in_list c (latest (fun item => list_of item.category) (limit policy) items) =
      (in_list c items).drop ((in_list c items).length - n) :=
  filter_latest_of_some h items

theorem limited_fst (policy : RetentionPolicy) (items : List (CategorizedItem β)) :
    (limited policy (separate items)).1 = kept_lists.flatMap fun c =>
      in_list c (latest (fun item => list_of item.category) (limit policy) items) := by
  have hothers : in_list .Other (latest (fun item => list_of item.category) (limit policy) items) =
      in_list .Other items := filter_latest_of_none rfl items
  rw [separate_eq]
  unfold limited kept_lists
  dsimp only
  rw [keep_latest_screenshot_fst]
  dsimp only
  rw [keep_last_fst, keep_last_fst, keep_latest_baseline_fst, keep_all_eq]
  simp only [List.flatMap_cons, List.flatMap_nil, List.map_id, List.nil_append, List.append_nil,
    List.append_assoc]
  rw [hothers, in_list_latest rfl, in_list_latest rfl, in_list_latest rfl, in_list_latest rfl]

theorem limited_measured (policy : RetentionPolicy) (lists : Separated β) :
    Measured (limited policy lists) := by
  have hstart : Measured (([], {}) : Kept β) := rfl
  unfold limited
  refine keep_latest_screenshot_measured (remove_all_measured status_removed (fun _ => rfl) _ ?_)
  refine keep_last_measured _ snapshots_removed snapshots_kept (fun _ _ => rfl) (fun _ _ => rfl) _ ?_
  refine keep_last_measured _ deltas_removed deltas_kept (fun _ _ => rfl) (fun _ _ => rfl) _ ?_
  exact keep_latest_baseline_measured (keep_all_measured hstart)

/-- What the limits let through stands in one of the lists. -/
theorem kept_list_of_mem {policy : RetentionPolicy} {items : List (CategorizedItem β)}
    {item : CategorizedItem β}
    (h : item ∈ latest (fun item => list_of item.category) (limit policy) items) :
    list_of item.category ∈ kept_lists := by
  have hstatus : list_of item.category ≠ .StatusMessage := by
    intro heq
    have hmem : item ∈ in_list .StatusMessage
        (latest (fun item => list_of item.category) (limit policy) items) :=
      List.mem_filter.mpr ⟨h, decide_eq_true heq⟩
    rw [in_list_latest rfl, Nat.sub_zero, List.drop_length] at hmem
    cases hmem
  cases hcategory : item.category <;> simp_all [list_of, kept_lists]

theorem sort_limited (policy : RetentionPolicy) {items : List (CategorizedItem β)}
    (hindex : items.Pairwise fun a b => a.index < b.index) :
    sort_by_index (limited policy (separate items)).1 =
      latest (fun item => list_of item.category) (limit policy) items := by
  refine insertionSort_of_perm ?_ (hindex.sublist (latest_sublist items))
  rw [limited_fst]
  exact flatMap_filter_perm (by decide) fun item => kept_list_of_mem

theorem budget_loop (max : Nat) (kept : List (CategorizedItem β))
    (s : Nat × List (CategorizedItem β) × RetentionStats × Nat) :
    ((kept.foldl (budget_step max) s).1, (kept.foldl (budget_step max) s).2.1) =
      kept.foldl (take_in CategorizedItem.size_bytes max) (s.1, s.2.1) := by
  induction kept generalizing s with
  | nil => rfl
  | cons item kept ih =>
    rw [List.foldl_cons, List.foldl_cons, ih]
    congr 1
    unfold budget_step take_in
    dsimp only
    split
    · rfl
    · rfl

/-- The budget keeps what fits, from the last item on. -/
theorem fit_budget_fst (policy : RetentionPolicy) {s : Kept β} (hmeasured : Measured s)
    {kept : List (CategorizedItem β)} (hsort : sort_by_index s.1 = kept)
    (hindex : kept.Pairwise fun a b => a.index < b.index) :
    (fit_budget policy s).1 = fitting CategorizedItem.size_bytes policy.max_total_bytes kept := by
  have hperm : kept.Perm s.1 := hsort ▸ List.perm_insertionSort _ s.1
  unfold fit_budget
  rw [hsort]
  by_cases hover : policy.max_total_bytes < s.2.bytes_kept
  · have hloop := congrArg Prod.snd (budget_loop policy.max_total_bytes kept.reverse
      (0, [], s.2, s.2.bytes_kept))
    rw [foldl_take_in] at hloop
    rw [if_pos hover]
    dsimp only at hloop ⊢
    rw [hloop]
    exact insertionSort_of_perm (List.reverse_perm _) (hindex.sublist (fitting_sublist kept))
  · rw [if_neg hover]
    refine (fitting_eq_self ?_).symm
    rw [total_perm hperm, ← hmeasured]
    exact Nat.not_lt.mp hover

end owned

theorem categorized_index (items : List (ResponseItem β)) :
    (categorized to_json content_len items).Pairwise fun a b => a.index < b.index := by
  unfold categorized
  rw [List.pairwise_map]
  simp only [CategorizedItem.new]
  rw [← List.pairwise_map, List.zipIdx_map_snd]
  exact List.pairwise_lt_range'

theorem categorized_size {items : List (ResponseItem β)} {item : CategorizedItem β}
    (h : item ∈ categorized to_json content_len items) :
    estimate_item_size to_json content_len item.item = item.size_bytes := by
  obtain ⟨p, -, rfl⟩ := List.mem_map.mp h
  rfl

theorem limited_size {policy : RetentionPolicy} {items : List (ResponseItem β)}
    {item : CategorizedItem β}
    (h : item ∈ (owned.limited policy (separate (categorized to_json content_len items))).1) :
    estimate_item_size to_json content_len item.item = item.size_bytes := by
  rw [owned.limited_fst] at h
  obtain ⟨c, -, hmem⟩ := List.mem_flatMap.mp h
  exact categorized_size to_json content_len ((latest_sublist _).subset (List.mem_filter.mp hmem).1)

/-- The owned pass does what the borrowed pass does. -/
theorem fit_budget_limited (items : List (ResponseItem β)) (policy : RetentionPolicy) :
    borrowed.fit_budget to_json content_len policy
        (borrowed.limited policy (separate (categorized to_json content_len items))) =
      borrowed.as_indexed (owned.fit_budget policy
        (owned.limited policy (separate (categorized to_json content_len items)))) := by
  rw [borrowed.limited_indexed]
  exact borrowed.fit_budget_indexed to_json content_len policy fun item h =>
    limited_size to_json content_len h

/-- For every history and policy the pass over owned items returns what the pass over borrowed
items returns, with the same statistics. -/
theorem owned_pass_is_borrowed_pass (items : List (ResponseItem β)) (policy : RetentionPolicy) :
    apply_retention_policy_owned to_json content_len items policy =
      apply_retention_policy to_json content_len items policy := by
  unfold apply_retention_policy_owned apply_retention_policy
  dsimp only
  rw [fit_budget_limited]
  simp [borrowed.as_indexed, borrowed.indexed, Function.comp_def]

/-! ## What is kept -/

/-- The pass keeps what fits the budget of what the limits let through. -/
theorem apply_retention_policy_fst (items : List (ResponseItem β)) (policy : RetentionPolicy) :
    (apply_retention_policy to_json content_len items policy).1 =
      fitting (estimate_item_size to_json content_len) policy.max_total_bytes
        (within_limits policy items) := by
  have hindex := categorized_index to_json content_len items
  have hfit := owned.fit_budget_fst policy
    (owned.limited_measured policy (separate (categorized to_json content_len items)))
    (owned.sort_limited policy hindex) (hindex.sublist (latest_sublist _))
  have hitems : items = items.zipIdx.map Prod.fst := (List.zipIdx_map_fst 0 items).symm
  unfold apply_retention_policy
  dsimp only
  rw [fit_budget_limited]
  simp only [borrowed.as_indexed]
  rw [hfit]
  unfold within_limits categorized
  rw [latest_map, fitting_map, List.map_map, List.map_map]
  conv_rhs => rw [hitems, latest_map, fitting_map]
  rfl

theorem apply_retention_policy_owned_fst (items : List (ResponseItem β)) (policy : RetentionPolicy) :
    (apply_retention_policy_owned to_json content_len items policy).1 =
      fitting (estimate_item_size to_json content_len) policy.max_total_bytes
        (within_limits policy items) := by
  rw [← apply_retention_policy_fst]
  unfold apply_retention_policy apply_retention_policy_owned
  dsimp only
  rw [fit_budget_limited]
  simp [borrowed.as_indexed, borrowed.indexed, Function.comp_def]

end Ecode.retention
