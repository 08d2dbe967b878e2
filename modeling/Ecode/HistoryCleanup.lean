-- What is cleaned out of a history when a message of the user arrives
-- (core/src/codex/session.rs): old screenshots and status messages, by the scan over all items
-- or by the retention policy.
import Ecode.Places
import Ecode.Resume
import Ecode.Retention

namespace Ecode.cleanup

open placing retention
open compact (ENVIRONMENT_CONTEXT_OPEN_TAG ENVIRONMENT_CONTEXT_DELTA_OPEN_TAG
  BROWSER_SNAPSHOT_OPEN_TAG)

variable {β : Type}

/-! ## The scan -/

def has_status (content : List ContentItem) : Bool :=
  any_input_text content fun text =>
    Text.contains text "== System Status ==".toList ||
      Text.contains text "Current working directory:".toList ||
      Text.contains text "Git branch:".toList ||
      Text.contains text ENVIRONMENT_CONTEXT_OPEN_TAG ||
      Text.contains text ENVIRONMENT_CONTEXT_DELTA_OPEN_TAG ||
      Text.contains text BROWSER_SNAPSHOT_OPEN_TAG

def has_screenshot (content : List ContentItem) : Bool := content.any is_image

def has_real_text (content : List ContentItem) : Bool :=
  any_input_text content fun text =>
    !Text.contains text "== System Status ==".toList &&
      !Text.contains text "Current working directory:".toList &&
      !Text.contains text "Git branch:".toList &&
      !(Text.trim text).isEmpty &&
      !Text.contains text ENVIRONMENT_CONTEXT_OPEN_TAG &&
      !Text.contains text ENVIRONMENT_CONTEXT_DELTA_OPEN_TAG &&
      !Text.contains text BROWSER_SNAPSHOT_OPEN_TAG

def has_env_baseline (content : List ContentItem) : Bool :=
  any_input_text content fun text =>
    Text.contains text ENVIRONMENT_CONTEXT_OPEN_TAG &&
      !Text.contains text ENVIRONMENT_CONTEXT_DELTA_OPEN_TAG

def has_env_delta (content : List ContentItem) : Bool :=
  any_input_text content fun text => Text.contains text ENVIRONMENT_CONTEXT_DELTA_OPEN_TAG

def has_browser_snapshot (content : List ContentItem) : Bool :=
  any_input_text content fun text => Text.contains text BROWSER_SNAPSHOT_OPEN_TAG

def MAX_ENV_DELTAS : Nat := 3

def MAX_BROWSER_SNAPSHOTS : Nat := 2

/-- The places of the messages that the scan has found. -/
structure Scanned where
  real_user_messages : List Nat := []
  status_messages : List Nat := []
  env_baselines : List Nat := []
  env_deltas : List Nat := []
  browser_snapshot_messages : List Nat := []
  deriving DecidableEq, Repr

/-- Real text alone makes a message of the user; beside a status text or a screenshot the message
is a status message. -/
def Scanned.sort_in (s : Scanned) (idx : Nat) (content : List ContentItem) : Scanned :=
  if has_real_text content && !has_status content && !has_screenshot content then
    { s with real_user_messages := s.real_user_messages ++ [idx] }
  else if has_status content || has_screenshot content then
    { s with status_messages := s.status_messages ++ [idx] }
  else s

/-- One turn of the scan. -/
def Scanned.scan_item (s : Scanned) (item : ResponseItem β) (idx : Nat) : Scanned :=
  match item with
  | .Message _ role content _ _ =>
    if role ≠ "user".toList then s
    else
      let s := s.sort_in idx content
      let s := if has_env_baseline content then
        { s with env_baselines := s.env_baselines ++ [idx] } else s
      let s := if has_env_delta content then
        { s with env_deltas := s.env_deltas ++ [idx] } else s
      if has_browser_snapshot content then
        { s with browser_snapshot_messages := s.browser_snapshot_messages ++ [idx] } else s
  | _ => s

def scan (current_items : List (ResponseItem β)) : Scanned :=
  current_items.zipIdx.foldl (fun s x => s.scan_item x.1 x.2) {}

/-! ## What to keep -/

/-- A message with a screenshot. -/
def shows_screenshot : ResponseItem β → Bool
  | .Message _ _ content _ _ => has_screenshot content
  | _ => false

def screenshot_at (current_items : List (ResponseItem β)) (idx : Nat) : Bool :=
  match current_items[idx]? with
  | some item => shows_screenshot item
  | none => false

/-- For each of the last two messages of the user the first screenshot after it. -/
def screenshots_to_keep (current_items : List (ResponseItem β)) (s : Scanned) : Finset Nat :=
  (s.real_user_messages.reverse.take 2).foldl (fun kept user_idx =>
    match s.status_messages.find? fun status_idx =>
        user_idx < status_idx && screenshot_at current_items status_idx with
    | some status_idx => insert status_idx kept
    | none => kept) ∅

def env_deltas_to_keep (s : Scanned) : Finset Nat :=
  (s.env_deltas.reverse.take MAX_ENV_DELTAS).toFinset

def browser_snapshots_to_keep (s : Scanned) : Finset Nat :=
  (s.browser_snapshot_messages.reverse.take MAX_BROWSER_SNAPSHOTS).toFinset

/-- Status messages stay if one of the sets has them, all other items stay. -/
def keep (current_items : List (ResponseItem β)) (s : Scanned) (idx : Nat) : Bool :=
  if idx ∈ s.status_messages then
    idx ∈ screenshots_to_keep current_items s || idx ∈ browser_snapshots_to_keep s ||
      s.env_baselines.getLast? = some idx || idx ∈ env_deltas_to_keep s
  else true

/-- The items kept so far, and the screenshots and status messages removed so far. -/
structure Kept (β : Type) where
  items_to_keep : List (ResponseItem β) := []
  removed_screenshots : Nat := 0
  removed_status : Nat := 0

/-- One turn of the loop that keeps and counts. -/
def Kept.next (k : Kept β) (keep : Bool) (item : ResponseItem β) : Kept β :=
  if keep then { k with items_to_keep := k.items_to_keep ++ [item] }
  else match item with
    | .Message _ _ content _ _ =>
      if has_screenshot content then { k with removed_screenshots := k.removed_screenshots + 1 }
      else { k with removed_status := k.removed_status + 1 }
    | _ => k

structure CleanupStats where
  removed_screenshots : Nat
  removed_status : Nat
  removed_env_baselines : Nat
  removed_env_deltas : Nat
  removed_browser_snapshots : Nat
  kept_recent_screenshots : Nat
  kept_env_deltas : Nat
  kept_browser_snapshots : Nat
  deriving DecidableEq, Repr

def cleanup_stats (current_items : List (ResponseItem β)) (s : Scanned) (k : Kept β) :
    CleanupStats where
  removed_screenshots := k.removed_screenshots
  removed_status := k.removed_status
  removed_env_baselines :=
    s.env_baselines.length - if s.env_baselines.getLast?.isSome then 1 else 0
  removed_env_deltas := s.env_deltas.length - (env_deltas_to_keep s).card
  removed_browser_snapshots :=
    s.browser_snapshot_messages.length - (browser_snapshots_to_keep s).card
  kept_recent_screenshots := (screenshots_to_keep current_items s).card
  kept_env_deltas := (env_deltas_to_keep s).card
  kept_browser_snapshots := (browser_snapshots_to_keep s).card

/-- The loop over borrowed items: what it keeps is a copy. -/
def prune_history_items (current_items : List (ResponseItem β)) :
    List (ResponseItem β) × CleanupStats :=
  let s := scan current_items
  let k := current_items.zipIdx.foldl (fun k x => k.next (keep current_items s x.2) x.1) {}
  (k.items_to_keep, cleanup_stats current_items s k)

/-- The loop over owned items: each is taken off the list, at the next index. -/
def drain (keep : Nat → Bool) (k : Kept β) (idx : Nat) : List (ResponseItem β) → Kept β
  | [] => k
  | item :: rest => drain keep (k.next (keep idx) item) (idx + 1) rest

def prune_history_items_owned (current_items : List (ResponseItem β)) :
    List (ResponseItem β) × CleanupStats :=
  let s := scan current_items
  let k := drain (keep current_items s) {} 0 current_items
  (k.items_to_keep, cleanup_stats current_items s k)

/-- `cleanup_old_status_items`: what is left of a history. -/
def cleanup_old_status_items (to_json : List β → Text) (content_len : β → Nat) (env_ctx_v2 : Bool)
    (policy : RetentionPolicy) (current_items : List (ResponseItem β)) : List (ResponseItem β) :=
  let items_to_keep :=
    if env_ctx_v2 then (apply_retention_policy_owned to_json content_len current_items policy).1
    else (prune_history_items_owned current_items).1
  items_to_keep.filter resume.is_api_message

/-! ## One loop is the other -/

theorem drain_eq (keep : Nat → Bool) (items : List (ResponseItem β)) (k : Kept β) (idx : Nat) :
    drain keep k idx items = (items.zipIdx idx).foldl (fun k x => k.next (keep x.2) x.1) k := by
  induction items generalizing k idx with
  | nil => rfl
  | cons item rest ih =>
    rw [drain, List.zipIdx_cons, List.foldl_cons]
    apply ih

/-- For every history the loop over owned items keeps what the loop over borrowed items keeps, with
the same statistics. -/
theorem owned_pruning_is_borrowed_pruning (current_items : List (ResponseItem β)) :
    prune_history_items_owned current_items = prune_history_items current_items := by
  unfold prune_history_items_owned prune_history_items
  dsimp only
  rw [drain_eq]

/-! ## The scan finds places -/

/-- A test of the content of a message of the user. -/
def of_user (test : List ContentItem → Bool) : ResponseItem β → Bool
  | .Message _ role content _ _ => role = "user".toList && test content
  | _ => false

def is_plain (content : List ContentItem) : Bool :=
  has_real_text content && !has_status content && !has_screenshot content

def is_status (content : List ContentItem) : Bool := has_status content || has_screenshot content

/-- The place, if the test holds. -/
def place_if (test : Bool) (idx : Nat) : List Nat := if test then [idx] else []

theorem sort_in_eq (s : Scanned) (idx : Nat) (content : List ContentItem) :
    s.sort_in idx content =
      { s with
        real_user_messages := s.real_user_messages ++ place_if (is_plain content) idx
        status_messages := s.status_messages ++ place_if (is_status content) idx } := by
  unfold Scanned.sort_in is_plain is_status place_if
  cases has_real_text content <;> cases has_status content <;> cases has_screenshot content <;> simp

/-- What one turn of the scan adds to each list. -/
theorem scan_item_eq (s : Scanned) (item : ResponseItem β) (idx : Nat) :
    s.scan_item item idx =
      { real_user_messages := s.real_user_messages ++ place_if (of_user is_plain item) idx
        status_messages := s.status_messages ++ place_if (of_user is_status item) idx
        env_baselines := s.env_baselines ++ place_if (of_user has_env_baseline item) idx
        env_deltas := s.env_deltas ++ place_if (of_user has_env_delta item) idx
        browser_snapshot_messages :=
          s.browser_snapshot_messages ++ place_if (of_user has_browser_snapshot item) idx } := by
  cases item with
  | Message id role content end_turn phase =>
    rw [Scanned.scan_item, sort_in_eq]
    by_cases huser : role = "user".toList
    · simp only [huser, of_user, decide_true, Bool.true_and, ne_eq, not_true_eq_false, if_false]
      cases has_env_baseline content <;> cases has_env_delta content <;>
        cases has_browser_snapshot content <;> simp [place_if]
    · rw [if_pos huser]
      simp only [of_user, decide_eq_false huser, Bool.false_and, place_if, Bool.false_eq_true,
        if_false, List.append_nil]
  | _ => simp [Scanned.scan_item, of_user, place_if]

theorem scan_concat (items : List (ResponseItem β)) (item : ResponseItem β) :
    scan (items ++ [item]) = (scan items).scan_item item items.length := by
  unfold scan
  rw [List.zipIdx_append, List.foldl_append, Nat.zero_add]
  rfl

theorem scan_eq (items : List (ResponseItem β)) :
    scan items =
      { real_user_messages := places (of_user is_plain) items
        status_messages := places (of_user is_status) items
        env_baselines := places (of_user has_env_baseline) items
        env_deltas := places (of_user has_env_delta) items
        browser_snapshot_messages := places (of_user has_browser_snapshot) items } := by
  induction items using List.reverseRecOn with
  | nil => rfl
  | append_singleton items item ih =>
    rw [scan_concat, ih, scan_item_eq]
    simp only [places_concat, place_if]

end Ecode.cleanup
