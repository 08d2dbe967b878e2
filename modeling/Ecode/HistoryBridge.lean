-- The bridge message that stands for a conversation after its compaction
-- (core/src/codex/compact.rs, templates/compact/history_bridge.md).
import Ecode.Compaction

namespace Ecode.compact

variable {β : Type}

/-! ## The kinds of messages -/

def USER_INSTRUCTIONS_OPEN_TAG : Text := "<user_instructions>".toList

def ENVIRONMENT_CONTEXT_OPEN_TAG : Text := "<environment_context>".toList

def ENVIRONMENT_CONTEXT_CLOSE_TAG : Text := "</environment_context>".toList

def ENVIRONMENT_CONTEXT_DELTA_OPEN_TAG : Text := "<environment_context_delta>".toList

def ENVIRONMENT_CONTEXT_DELTA_CLOSE_TAG : Text := "</environment_context_delta>".toList

def BROWSER_SNAPSHOT_OPEN_TAG : Text := "<browser_snapshot>".toList

inductive InputMessageKind where
  | User
  | Assistant
  | UserInstructions
  | EnvironmentContext
  | BrowserSnapshot
  | Other
  deriving DecidableEq

def InputMessageKind.from (role text : Text) : InputMessageKind :=
  if role = "user".toList then
    if Text.contains text USER_INSTRUCTIONS_OPEN_TAG then .UserInstructions
    else if Text.contains text ENVIRONMENT_CONTEXT_OPEN_TAG ||
        Text.contains text ENVIRONMENT_CONTEXT_DELTA_OPEN_TAG then .EnvironmentContext
    else if Text.contains text BROWSER_SNAPSHOT_OPEN_TAG then .BrowserSnapshot
    else .User
  else if role = "assistant".toList then .Assistant
  else .Other

def is_session_prefix_message (text : Text) : Bool :=
  match InputMessageKind.from "user".toList text with
  | .UserInstructions | .EnvironmentContext => true
  | _ => false

/-! ## The snippets -/

def COMPACT_USER_MESSAGE_MAX_TOKENS : Nat := 20000

def MAX_COMPACTION_SNIPPETS : Nat := 12

structure CompactionSnippet where
  role : Text
  text : Text
  deriving DecidableEq

def content_text : ContentItem → Option Text
  | .InputText text | .OutputText text => if text = [] then none else some text
  | .InputImage _ => none

def content_items_to_text (content : List ContentItem) : Option Text :=
  let pieces := content.filterMap content_text
  if pieces = [] then none else some (Text.join ['\n'] pieces)

/-- The text of a message that may be a snippet. -/
def snippet_text : ResponseItem β → Option (Text × Text)
  | .Message _ role content _ _ =>
    if role ≠ "user".toList ∧ role ≠ "assistant".toList then none
    else
      match content_items_to_text content with
      | none => none
      | some text =>
        if role = "user".toList ∧ is_session_prefix_message text then none else some (role, text)
  | _ => none

/-- The loop over the items from the newest one on. There are no snippets when a cut panics. -/
def collect (snippets : List CompactionSnippet) (total_bytes : Nat) :
    List (ResponseItem β) → Option (List CompactionSnippet)
  | [] => some snippets
  | item :: items =>
    match snippet_text item with
    | none => collect snippets total_bytes items
    | some (role, text) =>
      match truncate_for_compact text COMPACT_TEXT_CONTENT_MAX_BYTES with
      | none => none
      | some truncated =>
        if Text.trim truncated = [] then collect snippets total_bytes items
        else if MAX_COMPACTION_SNIPPETS ≤ snippets.length then some snippets
        else if snippets ≠ [] ∧
            total_bytes + Text.len truncated > COMPACT_USER_MESSAGE_MAX_TOKENS * 4 then
          some snippets
        else collect (snippets ++ [⟨role, truncated⟩]) (total_bytes + Text.len truncated) items

def collect_compaction_snippets (items : List (ResponseItem β)) : Option (List CompactionSnippet) :=
  (collect [] 0 items.reverse).map List.reverse

/-- Items that are never snippets are passed over. -/
theorem collect_filter {keep : ResponseItem β → Bool} (items : List (ResponseItem β))
    (hdropped : ∀ item ∈ items, keep item = false → snippet_text item = none)
    (snippets : List CompactionSnippet) (total_bytes : Nat) :
    collect snippets total_bytes (items.filter keep) = collect snippets total_bytes items := by
  induction items generalizing snippets total_bytes with
  | nil => rfl
  | cons item items ih =>
    have ih := ih fun item hitem => hdropped item (List.mem_cons_of_mem _ hitem)
    rcases hkeep : keep item with _ | _
    · rw [List.filter_cons_of_neg (by simp [hkeep]), ih, collect,
        hdropped item List.mem_cons_self hkeep]
    · rw [List.filter_cons_of_pos hkeep, collect, collect]
      rcases snippet_text item with _ | ⟨role, text⟩
      · exact ih _ _
      · dsimp only
        rcases truncate_for_compact text COMPACT_TEXT_CONTENT_MAX_BYTES with _ | truncated
        · rfl
        · dsimp only
          rw [ih, ih]

theorem collect_compaction_snippets_filter {keep : ResponseItem β → Bool}
    (hdropped : ∀ item, keep item = false → snippet_text item = none)
    (items : List (ResponseItem β)) :
    collect_compaction_snippets (items.filter keep) = collect_compaction_snippets items := by
  unfold collect_compaction_snippets
  rw [← List.filter_reverse, collect_filter _ fun item _ => hdropped item]

/-! ## The bridge message -/

def render_snippet (snippet : CompactionSnippet) : Text :=
  "- (".toList ++ snippet.role ++ ") ".toList ++ snippet.text ++ ['\n']

/-- The template with the snippets and the summary in it. -/
def render_compaction_summary (snippets : List CompactionSnippet) (summary_text : Text) : Text :=
  let normalized_summary :=
    if Text.trim summary_text = [] then "(no summary available)".toList else summary_text
  "[Compaction Summary]\n\nRecent exchanges (newest last):\n".toList ++
    (if snippets = [] then "- (no user or assistant messages recorded)\n".toList
      else snippets.flatMap render_snippet) ++
    "\n\nKey takeaways:\n".toList ++ normalized_summary

/-- A message of the user with one text. -/
def user_message (text : Text) : ResponseItem β :=
  .Message none "user".toList [.InputText text] none none

def make_compaction_summary_message (snippets : List CompactionSnippet) (summary_text : Text) :
    ResponseItem β :=
  user_message (render_compaction_summary snippets summary_text)

def build_compacted_history (initial_context : List (ResponseItem β))
    (snippets : List CompactionSnippet) (summary_text : Text) : List (ResponseItem β) :=
  initial_context ++ [make_compaction_summary_message snippets summary_text]

def build_emergency_compacted_history (initial_context : List (ResponseItem β))
    (warning_message : Text) : List (ResponseItem β) :=
  initial_context ++ [user_message warning_message]

/-- The last output text of a content. -/
def last_output_text (content : List ContentItem) : Option Text :=
  content.reverse.findSome? fun item =>
    match item with
    | .OutputText text => some text
    | _ => none

def get_last_assistant_message_from_turn (responses : List (ResponseItem β)) : Option Text :=
  responses.reverse.findSome? fun item =>
    match item with
    | .Message _ role content _ _ =>
      if role = "assistant".toList then last_output_text content else none
    | _ => none

end Ecode.compact
