-- The messages of a Chat Completions request: tool calls in a row share one message, and reasoning
-- is moved to the item beside it (core/src/chat_completions.rs).
import Ecode.Pairing
import Ecode.ResponseItems

namespace Ecode.chat_messages

open pairing

variable {β : Type}

/-! ## The messages -/

inductive Part where
  | text (text : Text)
  | image_url (url : Text)
  deriving DecidableEq

inductive Content (β : Type) where
  | text (text : Text)
  | parts (parts : List Part)
  | output (output : FunctionCallOutputPayload β)

inductive ToolCall (β : Type) where
  | function (id name arguments : Text)
  | tool_search_call (id : Text) (call_id : Option Text) (body : β)
  | local_shell_call (id : Text) (body : β)
  | custom (id : Option Text) (name input : Text)

def ToolCall.id : ToolCall β → Option Text
  | .function id _ _ => some id
  | .tool_search_call id _ _ => some id
  | .local_shell_call id _ => some id
  | .custom id _ _ => id

/-- A message without `tool_calls`. -/
inductive PlainMessage (β : Type) where
  | message (role : Text) (content : Content β)
  | tool (tool_call_id : Text) (content : Content β)

inductive ChatMessage (β : Type) where
  | plain (message : PlainMessage β)
  | assistant (tool_calls : List (ToolCall β)) (reasoning : Option Text)

def ChatMessage.tool_calls : ChatMessage β → List (ToolCall β)
  | .plain _ => []
  | .assistant tool_calls _ => tool_calls

def ChatMessage.tool_call_id : ChatMessage β → Option Text
  | .plain (.tool tool_call_id _) => some tool_call_id
  | _ => none

/-! ## The items -/

def is_image : ContentItem → Bool
  | .InputImage _ => true
  | _ => false

def content_part : ContentItem → Part
  | .InputText text => .text text
  | .OutputText text => .text text
  | .InputImage image_url => .image_url image_url

def content_text : ContentItem → Text
  | .InputText text => text
  | .OutputText text => text
  | .InputImage _ => []

def message_content (content : List ContentItem) : Content β :=
  if content.any is_image then .parts (content.map content_part)
  else .text (content.flatMap content_text)

def tool_call : ResponseItem β → Option (ToolCall β)
  | .FunctionCall _ name _ arguments call_id => some (.function call_id name arguments)
  | .ToolSearchCall _ call_id body => some (.tool_search_call (call_id.getD []) call_id body)
  | .LocalShellCall id _ body => some (.local_shell_call (id.getD []) body)
  | .CustomToolCall id _ _ name _ input => some (.custom id name input)
  | _ => none

section

-- How the items of an output, and what a tool search found, are written as JSON.
variable (to_json : List β → Text) (search_json : β → Text)

def plain_message : ResponseItem β → Option (PlainMessage β)
  | .Message _ role content _ _ => some (.message role (message_content content))
  | .FunctionCallOutput call_id output => some (.tool call_id (.text (output.to_string to_json)))
  | .ToolSearchOutput call_id body => some (.tool (call_id.getD []) (.text (search_json body)))
  | .CustomToolCallOutput call_id _ output => some (.tool call_id (.output output))
  | _ => none

/-! ## The anchors of the reasoning -/

-- The texts of the content of a reasoning item.
variable (texts : β → List Text)

def last_emitted_role (input : List (ResponseItem β)) : Option Text :=
  (input.filterMap fun
    | .Message _ role _ _ _ => some role
    | .FunctionCall .. | .ToolSearchCall .. | .LocalShellCall .. => some "assistant".toList
    | .FunctionCallOutput .. | .ToolSearchOutput .. => some "tool".toList
    | .Other .CompactionSummary _ | .Other .ContextCompaction _ => some "assistant".toList
    | _ => none).getLast?

def has_role (role : String) : ResponseItem β → Bool
  | .Message _ role' _ _ _ => role' == role.toList
  | _ => false

def last_user_index (input : List (ResponseItem β)) : Option Nat :=
  (input.zipIdx.filter fun entry => has_role "user" entry.1).getLast?.map Prod.snd

def after_last_user (input : List (ResponseItem β)) (idx : Nat) : Bool :=
  match last_user_index input with
  | some u_idx => decide (u_idx < idx)
  | none => true

def has_role_at (input : List (ResponseItem β)) (role : String) (idx : Nat) : Bool :=
  input[idx]?.any (has_role role)

/-- The tool calls that reasoning is attached to. -/
def is_anchor_call : ResponseItem β → Bool
  | .FunctionCall .. | .ToolSearchCall .. | .LocalShellCall .. => true
  | _ => false

/-- The item that reasoning at `idx` is attached to. -/
def anchor (input : List (ResponseItem β)) (idx : Nat) : Option Nat :=
  if idx > 0 ∧ has_role_at input "assistant" (idx - 1) then some (idx - 1)
  else if input[idx + 1]?.any is_anchor_call ∨ has_role_at input "assistant" (idx + 1) then
    some (idx + 1)
  else none

/-- The text of a reasoning item with a content, unless it is blank. -/
def reasoning_text : ResponseItem β → Option Text
  | .Reasoning _ _ (some content) _ =>
    if Text.trim (texts content).flatten = [] then none else some (texts content).flatten
  | _ => none

structure Attachment where
  source : Nat
  anchor : Nat
  text : Text

/-- `reasoning_by_anchor_index`, with the item that each of the texts is from. -/
def attachments (input : List (ResponseItem β)) : List Attachment :=
  if last_emitted_role input = some "user".toList then []
  else
    (List.range input.length).filterMap fun idx =>
      if after_last_user input idx then do
        let text ← input[idx]?.bind (reasoning_text texts)
        let anchor ← anchor input idx
        some { source := idx, anchor, text }
      else none

def attached (input : List (ResponseItem β)) (idx : Nat) : List Attachment :=
  (attachments texts input).filter fun a => a.anchor == idx

/-- The texts of one anchor are pushed one after the other. -/
def reasoning_by_anchor_index (input : List (ResponseItem β)) (idx : Nat) : Option Text :=
  if (attached texts input idx).isEmpty then none
  else some ((attached texts input idx).flatMap Attachment.text)

/-! ## The request -/

def add_reasoning : Option Text → Option Text → Option Text
  | existing, none => existing
  | none, some reasoning => some reasoning
  | some existing, some reasoning =>
    some (if existing = [] then reasoning else existing ++ ['\n'] ++ reasoning)

def push_tool_call_message (messages : List (ChatMessage β)) (tool_call : ToolCall β)
    (reasoning : Option Text) : List (ChatMessage β) :=
  match messages.getLast? with
  | some (.assistant tool_calls existing) =>
    messages.dropLast ++ [.assistant (tool_calls ++ [tool_call]) (add_reasoning existing reasoning)]
  | _ => messages ++ [.assistant [tool_call] reasoning]

def push_item (reasoning : Nat → Option Text) (messages : List (ChatMessage β))
    (entry : ResponseItem β × Nat) : List (ChatMessage β) :=
  match tool_call entry.1 with
  | some tool_call => push_tool_call_message messages tool_call (reasoning entry.2)
  | none => messages ++ ((plain_message to_json search_json entry.1).map .plain).toList

/-- The `messages` of `stream_chat_completions`. -/
def messages (full_instructions : Text) (input : List (ResponseItem β)) :
    List (ChatMessage β) :=
  input.zipIdx.foldl (push_item to_json search_json (reasoning_by_anchor_index texts input))
    [.plain (.message "system".toList (.text full_instructions))]

/-! ## The layout -/

/-- A message by the items that it is made of. -/
inductive Group (β : Type) where
  | plain (message : PlainMessage β) (idx : Nat)
  | calls (entries : List (ResponseItem β × Nat))

def Group.entries : Group β → List (ResponseItem β × Nat)
  | .plain _ _ => []
  | .calls entries => entries

def Group.indices : Group β → List Nat
  | .plain _ idx => [idx]
  | .calls entries => entries.map Prod.snd

def push_group (groups : List (Group β)) (entry : ResponseItem β × Nat) : List (Group β) :=
  if (tool_call entry.1).isSome then
    match groups.getLast? with
    | some (.calls entries) => groups.dropLast ++ [.calls (entries ++ [entry])]
    | _ => groups ++ [.calls [entry]]
  else groups ++ ((plain_message to_json search_json entry.1).map (.plain · entry.2)).toList

/-- The messages after the instructions, by their items. -/
def layout (input : List (ResponseItem β)) : List (Group β) :=
  input.zipIdx.foldl (push_group to_json search_json) []

/-- The message of a group. -/
def Group.render (reasoning : Nat → Option Text) : Group β → ChatMessage β
  | .plain message _ => .plain message
  | .calls entries => .assistant (entries.filterMap fun entry => tool_call entry.1)
      (entries.foldl (fun existing entry => add_reasoning existing (reasoning entry.2)) none)

/-- The reasoning items of which a message has the text. -/
def held (input : List (ResponseItem β)) (group : Group β) : List Nat :=
  group.entries.flatMap fun entry => (attached texts input entry.2).map Attachment.source

/-! ## What a request promises -/

/-- The ids of the calls of a message. -/
def message_calls (message : ChatMessage β) : List Text := message.tool_calls.filterMap ToolCall.id

/-- Every tool message stands after an assistant message with a call of its id. -/
def ResultsPaired (messages : List (ChatMessage β)) : Prop :=
  Paired message_calls ChatMessage.tool_call_id messages

/-- The item that reasoning belongs to. -/
def beside (input : List (ResponseItem β)) (idx : Nat) : Option Nat :=
  if idx > 0 ∧ has_role_at input "assistant" (idx - 1) then some (idx - 1)
  else if input[idx + 1]?.any (fun item => (tool_call item).isSome) ∨
      has_role_at input "assistant" (idx + 1) then
    some (idx + 1)
  else none

/-- A non-blank reasoning item after the last user message, with the item it belongs to. -/
def Anchored (input : List (ResponseItem β)) (r a : Nat) : Prop :=
  (input[r]?.bind (reasoning_text texts)).isSome ∧ after_last_user input r = true ∧
    beside input r = some a

/-- The conversation ends with a message of the user. -/
def ends_with_user (input : List (ResponseItem β)) : Prop :=
  (input.filterMap fun
    | .Message _ role _ _ _ => some role
    | item =>
      if (tool_call item).isSome then some "assistant".toList
      else (plain_message to_json search_json item).map fun _ => "tool".toList).getLast? =
    some "user".toList

/-- The text of a reasoning item stands in one message only, once, and that is the message of its
anchor. -/
def OnceOnAnchor (input : List (ResponseItem β)) (r a : Nat) : Prop :=
  ((layout to_json search_json input).flatMap (held texts input)).count r = 1 ∧
    ∃ group ∈ layout to_json search_json input, a ∈ group.indices ∧ r ∈ held texts input group

/-- What the messages of a request promise for the items they are built from. -/
structure Faithful (full_instructions : Text) (input : List (ResponseItem β)) : Prop where
  results_paired : ResultsPaired (messages to_json search_json texts full_instructions input)
  calls_in_order : (messages to_json search_json texts full_instructions input).flatMap
    ChatMessage.tool_calls = input.filterMap tool_call
  reasoning_once : ¬ends_with_user to_json search_json input →
    ∀ r a, Anchored texts input r a → OnceOnAnchor to_json search_json texts input r a

/-- The id that a call has: a local shell call may only have its older one. -/
def call_ids : ResponseItem β → List (Option Text)
  | .FunctionCall _ _ _ _ call_id => [some call_id]
  | .ToolSearchCall _ call_id _ => [call_id]
  | .LocalShellCall id call_id _ => [call_id.or id]
  | .CustomToolCall _ _ call_id _ _ _ => [some call_id]
  | _ => []

def output_id : ResponseItem β → Option (Option Text)
  | .FunctionCallOutput call_id _ => some (some call_id)
  | .ToolSearchOutput call_id _ => some call_id
  | .CustomToolCallOutput call_id _ _ => some (some call_id)
  | _ => none

/-- Every tool output has its call before it. -/
def OutputsAfterCalls (input : List (ResponseItem β)) : Prop := Paired call_ids output_id input

/-- The id that a call is sent with. -/
def sent_ids (item : ResponseItem β) : List Text := ((tool_call item).bind ToolCall.id).toList

/-- The id that an output is sent with. -/
def sent_output_id (item : ResponseItem β) : Option Text :=
  match plain_message to_json search_json item with
  | some (.tool tool_call_id _) => some tool_call_id
  | _ => none

/-- Every output has a call before it that is sent with its id, and all reasoning belongs to a
function call, a tool search or a local shell call. -/
structure Sound (input : List (ResponseItem β)) : Prop where
  sent : Paired sent_ids (sent_output_id to_json search_json) input
  on_calls : ∀ r a, Anchored texts input r a → input[a]?.any is_anchor_call = true

/-! ## The messages by their groups -/

variable {to_json search_json texts}

/-- A message is pushed as its group is. -/
theorem push_item_render (reasoning : Nat → Option Text) (system : PlainMessage β)
    (groups : List (Group β)) (entry : ResponseItem β × Nat) :
    push_item to_json search_json reasoning
        (.plain system :: groups.map (Group.render reasoning)) entry =
      .plain system ::
        (push_group to_json search_json groups entry).map (Group.render reasoning) := by
  unfold push_item push_group
  rcases hcall : tool_call entry.1 with _ | call
  · simp only [Option.isSome_none, Bool.false_eq_true, if_false, List.map_append, List.cons_append]
    rcases plain_message to_json search_json entry.1 with _ | message <;> rfl
  · simp only [Option.isSome_some, if_true]
    unfold push_tool_call_message
    rcases List.eq_nil_or_concat' groups with rfl | ⟨init, last, rfl⟩
    · rcases htext : reasoning entry.2 with _ | text <;>
        simp [Group.render, hcall, add_reasoning, htext]
    · rw [List.map_append, List.map_singleton, ← List.cons_append, List.getLast?_concat,
        List.dropLast_concat, List.getLast?_concat, List.dropLast_concat]
      cases last with
      | plain message idx =>
        rcases htext : reasoning entry.2 with _ | text <;>
          simp [Group.render, hcall, add_reasoning, htext]
      | calls entries => simp [Group.render, hcall]

variable (to_json search_json) in
theorem foldl_render (reasoning : Nat → Option Text) (system : PlainMessage β)
    (entries : List (ResponseItem β × Nat)) (groups : List (Group β)) :
    entries.foldl (push_item to_json search_json reasoning)
        (.plain system :: groups.map (Group.render reasoning)) =
      .plain system ::
        (entries.foldl (push_group to_json search_json) groups).map (Group.render reasoning) := by
  induction entries generalizing groups with
  | nil => rfl
  | cons entry entries ih =>
    rw [List.foldl_cons, List.foldl_cons, push_item_render, ih]

theorem messages_eq_layout (full_instructions : Text) (input : List (ResponseItem β)) :
    messages to_json search_json texts full_instructions input =
      .plain (.message "system".toList (.text full_instructions)) ::
        (layout to_json search_json input).map
          (Group.render (reasoning_by_anchor_index texts input)) :=
  foldl_render _ _ _ _ _ []

/-- A group has the calls, in their order. -/
theorem push_group_entries (groups : List (Group β)) (entry : ResponseItem β × Nat) :
    (push_group to_json search_json groups entry).flatMap Group.entries =
      groups.flatMap Group.entries ++ [entry].filter fun entry => (tool_call entry.1).isSome := by
  unfold push_group
  rcases hcall : (tool_call entry.1).isSome with _ | _
  · rcases plain_message to_json search_json entry.1 with _ | message
    · simp [hcall]
    · simp [hcall, Group.entries]
  · rcases List.eq_nil_or_concat' groups with rfl | ⟨init, last, rfl⟩
    · simp [hcall, Group.entries]
    · rw [List.getLast?_concat, List.dropLast_concat]
      cases last with
      | plain message idx => simp [hcall, Group.entries]
      | calls entries => simp [hcall, Group.entries]

variable (to_json search_json) in
theorem foldl_entries (entries : List (ResponseItem β × Nat)) (groups : List (Group β)) :
    (entries.foldl (push_group to_json search_json) groups).flatMap Group.entries =
      groups.flatMap Group.entries ++ entries.filter fun entry => (tool_call entry.1).isSome := by
  induction entries generalizing groups with
  | nil => simp
  | cons entry entries ih =>
    rw [List.foldl_cons, ih, push_group_entries, List.append_assoc, ← List.filter_append,
      List.singleton_append]

theorem render_tool_calls (reasoning : Nat → Option Text) (group : Group β) :
    (group.render reasoning).tool_calls =
      group.entries.filterMap fun entry => tool_call entry.1 := by
  cases group <;> rfl

variable (to_json search_json) in
/-- The calls of the messages that are built from a list of items. -/
theorem foldl_tool_calls (reasoning : Nat → Option Text) (system : PlainMessage β)
    (entries : List (ResponseItem β × Nat)) :
    (entries.foldl (push_item to_json search_json reasoning) [.plain system]).flatMap
        ChatMessage.tool_calls = (entries.map Prod.fst).filterMap tool_call := by
  have hrender := foldl_render to_json search_json reasoning system entries []
  rw [List.map_nil] at hrender
  have hentries := foldl_entries to_json search_json entries []
  rw [hrender, List.flatMap_cons, List.flatMap_map]
  simp only [render_tool_calls]
  rw [← List.filterMap_flatMap, hentries]
  simp only [ChatMessage.tool_calls, List.flatMap_nil, List.nil_append, List.filterMap_filter,
    List.filterMap_map]
  refine List.filterMap_congr fun entry _ => ?_
  rcases h : tool_call entry.1 with _ | call
  · simp [h]
  · simp [h]

/-! ## Results and calls -/

theorem sent_output_of_call {item : ResponseItem β} (h : (tool_call item).isSome = true) :
    sent_output_id to_json search_json item = none := by
  cases item <;> first | rfl | cases h

theorem sent_output_of_plain {item : ResponseItem β} {message : PlainMessage β}
    (h : plain_message to_json search_json item = some message) :
    sent_output_id to_json search_json item = (ChatMessage.plain message).tool_call_id := by
  unfold sent_output_id
  rw [h]
  cases message <;> rfl

theorem called_messages (messages : List (ChatMessage β)) :
    called message_calls messages =
      (messages.flatMap ChatMessage.tool_calls).filterMap ToolCall.id := by
  unfold called message_calls
  rw [List.filterMap_flatMap]

theorem called_items (items : List (ResponseItem β)) :
    called sent_ids items = (items.filterMap tool_call).filterMap ToolCall.id := by
  unfold called sent_ids
  rw [List.filterMap_filterMap, List.filterMap_eq_flatMap_toList]

/-- A call joins the last message or is a new one, and neither waits for an output. -/
theorem paired_push_call (messages : List (ChatMessage β)) (call : ToolCall β)
    (reasoning : Option Text) :
    ResultsPaired (push_tool_call_message messages call reasoning) ↔ ResultsPaired messages := by
  unfold push_tool_call_message ResultsPaired
  have hnone (tool_calls : List (ToolCall β)) (text : Option Text) :
      (ChatMessage.assistant tool_calls text).tool_call_id = none := rfl
  rcases List.eq_nil_or_concat' messages with rfl | ⟨init, last, rfl⟩
  · exact paired_concat_of_none (hnone _ _)
  · rw [List.getLast?_concat, List.dropLast_concat]
    cases last with
    | plain message => exact paired_concat_of_none (hnone _ _)
    | assistant tool_calls text =>
      dsimp only
      rw [paired_concat_of_none (hnone _ _), paired_concat_of_none (hnone _ _)]

variable (to_json search_json) in
/-- The results are paired exactly when every output has a call before it that is sent with its
id. -/
theorem results_paired_iff (reasoning : Nat → Option Text) (system : Content β)
    (entries : List (ResponseItem β × Nat)) :
    ResultsPaired (entries.foldl (push_item to_json search_json reasoning)
        [.plain (.message "system".toList system)]) ↔
      Paired sent_ids (sent_output_id to_json search_json) (entries.map Prod.fst) := by
  induction entries using List.reverseRecOn with
  | nil =>
    have hsystem : ResultsPaired ([] ++ [ChatMessage.plain (.message "system".toList system)]) :=
      (paired_concat_of_none rfl).mpr paired_nil
    exact ⟨fun _ => paired_nil, fun _ => hsystem⟩
  | append_singleton entries entry ih =>
    have hcalled := foldl_tool_calls to_json search_json reasoning
      (.message "system".toList system) entries
    rw [List.foldl_concat, List.map_append, List.map_singleton, paired_concat, ← ih, push_item]
    rcases hcall : tool_call entry.1 with _ | call
    · dsimp only
      rcases hplain : plain_message to_json search_json entry.1 with _ | message
      · have hout : sent_output_id to_json search_json entry.1 = none := by
          unfold sent_output_id
          rw [hplain]
        simp [hout]
      · rw [sent_output_of_plain hplain]
        unfold ResultsPaired
        simp only [Option.map_some, Option.toList_some]
        rw [paired_concat, called_messages, hcalled, called_items]
    · rw [sent_output_of_call (by rw [hcall]; rfl)]
      dsimp only
      rw [paired_push_call]
      simp

/-! ## Reasoning -/

/-- After the last user message nothing has the role of the user. -/
theorem not_user_after {input : List (ResponseItem β)} {r i : Nat} {item : ResponseItem β}
    (hr : after_last_user input r = true) (hi : input[i]? = some item) (hle : r ≤ i) :
    has_role "user" item = false := by
  rcases huser : has_role "user" item with _ | _
  · rfl
  · have hmem : (item, i) ∈ input.zipIdx.filter fun entry => has_role "user" entry.1 := by
      rw [List.mem_filter, List.mem_zipIdx_iff_getElem?]
      exact ⟨hi, huser⟩
    unfold after_last_user last_user_index at hr
    obtain ⟨init, last, hlast⟩ := (List.eq_nil_or_concat' _).resolve_left (List.ne_nil_of_mem hmem)
    have hsorted : ((init ++ [last]).map Prod.snd).Pairwise (· < ·) := by
      rw [← hlast]
      refine List.Pairwise.sublist (List.filter_sublist.map _) ?_
      rw [List.zipIdx_map_snd]
      exact List.pairwise_lt_range'
    have hle_last : i ≤ last.2 := by
      rw [hlast] at hmem
      rcases List.mem_append.mp hmem with hinit | heq
      · rw [List.map_append, List.pairwise_append] at hsorted
        have hlt := hsorted.2.2 i (List.mem_map_of_mem hinit) last.2 (by simp)
        omega
      · exact (congrArg Prod.snd (List.mem_singleton.mp heq)).le
    rw [hlast, List.getLast?_concat] at hr
    have hlt : last.2 < r := of_decide_eq_true hr
    omega

/-- When no user message follows an item with a role, the last role is not that of the user. -/
theorem last_role_not_user {input : List (ResponseItem β)} {role : ResponseItem β → Option Text}
    (hrole : ∀ item, role item = some "user".toList → has_role "user" item = true) {i : Nat}
    {item : ResponseItem β} (hi : input[i]? = some item)
    (hfrom : ∀ (j : Nat) later, i ≤ j → input[j]? = some later → has_role "user" later = false)
    (hsome : (role item).isSome = true) :
    (input.filterMap role).getLast? ≠ some "user".toList := by
  intro hlast
  obtain ⟨hlt, rfl⟩ := List.getElem?_eq_some_iff.mp hi
  have hsplit : input = input.take i ++ input.drop i := (List.take_append_drop i input).symm
  have hne : (input.drop i).filterMap role ≠ [] := by
    obtain ⟨text, htext⟩ := Option.isSome_iff_exists.mp hsome
    rw [List.drop_eq_getElem_cons hlt, List.filterMap_cons_some htext]
    simp
  rw [hsplit, List.filterMap_append, List.getLast?_append_of_ne_nil _ hne] at hlast
  obtain ⟨later, hmem, huser⟩ := List.mem_filterMap.mp (List.mem_of_getLast? hlast)
  obtain ⟨j, hj, rfl⟩ := List.getElem_of_mem hmem
  rw [List.getElem_drop] at huser
  have hj' : i + j < input.length := by
    rw [List.length_drop] at hj
    omega
  have hfalse := hfrom (i + j) _ (by omega) (List.getElem?_eq_getElem hj')
  rw [hrole _ huser] at hfalse
  cases hfalse

theorem role_of_anchor_call {item : ResponseItem β} (h : is_anchor_call item = true) :
    (tool_call item).isSome = true := by
  cases item <;> first | rfl | cases h

theorem has_role_not_call {role : String} {item : ResponseItem β} (h : has_role role item = true) :
    tool_call item = none := by
  cases item <;> first | rfl | cases h

theorem any_getElem? {input : List (ResponseItem β)} {p : ResponseItem β → Bool} {i : Nat}
    (h : input[i]?.any p = true) : ∃ item, input[i]? = some item ∧ p item = true := by
  rcases hitem : input[i]? with _ | item
  · rw [hitem] at h
    cases h
  · rw [hitem] at h
    exact ⟨item, rfl, h⟩

/-- Reasoning that belongs to an item stands right before it, or after an assistant message. -/
theorem beside_cases {input : List (ResponseItem β)} {r a : Nat} (h : beside input r = some a) :
    (has_role_at input "assistant" a = true ∧ r ≤ a + 1) ∨
      a = r + 1 ∧ input[a]?.any (fun item => (tool_call item).isSome) = true := by
  unfold beside at h
  split_ifs at h with hbefore hafter
  · obtain rfl := Option.some.inj h
    exact .inl ⟨hbefore.2, by omega⟩
  · obtain rfl := Option.some.inj h
    rcases hafter with hcall | hrole
    · exact .inr ⟨rfl, hcall⟩
    · exact .inl ⟨hrole, by omega⟩

/-- Reasoning is attached to the item it belongs to unless that is a custom tool call. -/
theorem anchor_eq {input : List (ResponseItem β)} {r a : Nat} (h : beside input r = some a) :
    anchor input r = some a ↔
      has_role_at input "assistant" a = true ∨ input[a]?.any is_anchor_call = true := by
  unfold beside at h
  unfold anchor
  split_ifs at h with hbefore hafter
  · obtain rfl := Option.some.inj h
    rw [if_pos hbefore]
    exact ⟨fun _ => .inl hbefore.2, fun _ => rfl⟩
  · obtain rfl := Option.some.inj h
    rw [if_neg hbefore]
    constructor
    · intro hanchor
      split_ifs at hanchor with hnext
      exact hnext.symm
    · intro hnext
      rw [if_pos hnext.symm]

theorem beside_of_anchor {input : List (ResponseItem β)} {r a : Nat}
    (h : anchor input r = some a) : beside input r = some a := by
  unfold anchor at h
  unfold beside
  split_ifs at h with hbefore hafter
  · rwa [if_pos hbefore]
  · have hafter' : (input[r + 1]?.any fun item => (tool_call item).isSome) = true ∨
        has_role_at input "assistant" (r + 1) = true := by
      refine hafter.imp_left fun hcall => ?_
      obtain ⟨item, hitem, hanchor⟩ := any_getElem? hcall
      rw [hitem]
      exact role_of_anchor_call hanchor
    rwa [if_neg hbefore, if_pos hafter']

theorem mem_attachments {input : List (ResponseItem β)} {attachment : Attachment} :
    attachment ∈ attachments texts input ↔
      last_emitted_role input ≠ some "user".toList ∧
        after_last_user input attachment.source = true ∧
        input[attachment.source]?.bind (reasoning_text texts) = some attachment.text ∧
        anchor input attachment.source = some attachment.anchor := by
  unfold attachments
  split_ifs with huser
  · simp [huser]
  · rw [List.mem_filterMap]
    constructor
    · rintro ⟨idx, -, hidx⟩
      split_ifs at hidx with hafter
      obtain ⟨text, htext, hidx⟩ := Option.bind_eq_some_iff.mp hidx
      obtain ⟨a, ha, hidx⟩ := Option.bind_eq_some_iff.mp hidx
      obtain rfl := Option.some.inj hidx
      exact ⟨huser, hafter, htext, ha⟩
    · rintro ⟨-, hafter, htext, ha⟩
      refine ⟨attachment.source, ?_, ?_⟩
      · rw [List.mem_range]
        by_contra hlt
        rw [List.getElem?_eq_none (by omega)] at htext
        cases htext
      · rw [if_pos hafter, htext, ha]
        rfl

theorem reasoning_ne_nil {input : List (ResponseItem β)} {idx : Nat} {text : Text}
    (h : reasoning_by_anchor_index texts input idx = some text) : text ≠ [] := by
  unfold reasoning_by_anchor_index at h
  split_ifs at h with hempty
  obtain rfl := Option.some.inj h
  rcases hattached : attached texts input idx with _ | ⟨first, rest⟩
  · simp [hattached] at hempty
  · have hfirst : first ∈ attachments texts input :=
      List.mem_of_mem_filter (hattached ▸ List.mem_cons_self)
    obtain ⟨-, -, htext, -⟩ := mem_attachments.mp hfirst
    obtain ⟨item, -, htext⟩ := Option.bind_eq_some_iff.mp htext
    have hne : first.text ≠ [] := by
      intro hnil
      rw [hnil] at htext
      cases item with
      | Reasoning id summary content encrypted_content =>
        rcases content with _ | content
        · cases htext
        · unfold reasoning_text at htext
          dsimp only at htext
          split_ifs at htext with hblank
          rw [Option.some.inj htext] at hblank
          exact hblank rfl
      | _ => cases htext
    simp [hne]

theorem join_concat (sep text : Text) {pieces : List Text} (h : pieces ≠ []) :
    Text.join sep (pieces ++ [text]) = Text.join sep pieces ++ sep ++ text := by
  induction pieces with
  | nil => exact absurd rfl h
  | cons piece pieces ih =>
    rcases pieces with _ | ⟨next, pieces⟩
    · rfl
    · have htail := ih (by simp)
      simp only [List.cons_append, Text.join] at htail ⊢
      rw [htail]
      simp

/-- Texts that are not empty are put one below the other. -/
theorem foldl_add_reasoning {found : List (Option Text)}
    (h : ∀ text, some text ∈ found → text ≠ []) :
    found.foldl add_reasoning none =
        (if found.reduceOption = [] then none else some (Text.join ['\n'] found.reduceOption)) ∧
      (found.reduceOption ≠ [] → Text.join ['\n'] found.reduceOption ≠ []) := by
  induction found using List.reverseRecOn with
  | nil => exact ⟨rfl, fun hnil => absurd rfl hnil⟩
  | append_singleton found last ih =>
    obtain ⟨hfold, hjoin⟩ := ih fun text htext => h text (List.mem_append_left _ htext)
    rw [List.foldl_concat, hfold, List.reduceOption_append]
    rcases last with _ | text
    · rw [List.reduceOption_singleton, Option.toList_none, List.append_nil]
      refine ⟨?_, hjoin⟩
      split_ifs <;> rfl
    · have htext : text ≠ [] := h text (by simp)
      rw [List.reduceOption_singleton, Option.toList_some]
      by_cases hnil : found.reduceOption = []
      · simp [hnil, add_reasoning, Text.join, htext]
      · rw [if_neg hnil, if_neg (by simp), join_concat _ _ hnil]
        simp [add_reasoning, hjoin hnil]

/-- The reasoning of a message is that of its calls. -/
theorem render_reasoning (input : List (ResponseItem β)) (entries : List (ResponseItem β × Nat)) :
    let found := entries.map fun entry => reasoning_by_anchor_index texts input entry.2
    (Group.calls entries).render (reasoning_by_anchor_index texts input) =
      .assistant (entries.filterMap fun entry => tool_call entry.1)
        (if found.reduceOption = [] then none
          else some (Text.join ['\n'] found.reduceOption)) := by
  have hne (text : Text) (htext : some text ∈ entries.map fun entry =>
      reasoning_by_anchor_index texts input entry.2) : text ≠ [] := by
    obtain ⟨entry, -, hentry⟩ := List.mem_map.mp htext
    exact reasoning_ne_nil hentry
  dsimp only
  rw [← (foldl_add_reasoning hne).1, List.foldl_map]
  rfl

/-- Every reasoning item is attached once. -/
theorem sources_nodup (input : List (ResponseItem β)) :
    ((attachments texts input).map Attachment.source).Nodup := by
  unfold attachments
  split_ifs
  · exact List.nodup_nil
  · rw [List.map_filterMap]
    refine List.Nodup.filterMap ?_ List.nodup_range
    have hsource (idx : Nat) (s : Nat) (hs : s ∈ Option.map Attachment.source
        (if after_last_user input idx then do
          let text ← input[idx]?.bind (reasoning_text texts)
          let anchor ← anchor input idx
          some { source := idx, anchor, text }
        else none)) : idx = s := by
      obtain ⟨attachment, hattachment, rfl⟩ := Option.map_eq_some_iff.mp hs
      split_ifs at hattachment
      obtain ⟨text, -, hattachment⟩ := Option.bind_eq_some_iff.mp hattachment
      obtain ⟨a, -, hattachment⟩ := Option.bind_eq_some_iff.mp hattachment
      obtain rfl := Option.some.inj hattachment
      rfl
    intro i j s hi hj
    exact (hsource i s hi).trans (hsource j s hj).symm

theorem mem_attached {input : List (ResponseItem β)} {idx r : Nat} :
    r ∈ (attached texts input idx).map Attachment.source ↔
      ∃ text, (⟨r, idx, text⟩ : Attachment) ∈ attachments texts input := by
  unfold attached
  constructor
  · intro h
    obtain ⟨⟨source, a, text⟩, hmem, rfl⟩ := List.mem_map.mp h
    obtain ⟨hattachment, ha⟩ := List.mem_filter.mp hmem
    obtain rfl := beq_iff_eq.mp ha
    exact ⟨text, hattachment⟩
  · rintro ⟨text, h⟩
    exact List.mem_map.mpr ⟨_, List.mem_filter.mpr ⟨h, beq_self_eq_true _⟩, rfl⟩

/-- What the messages hold of the reasoning, by the calls of the input. -/
theorem held_layout (input : List (ResponseItem β)) :
    (layout to_json search_json input).flatMap (held texts input) =
      (input.zipIdx.filter fun entry => (tool_call entry.1).isSome).flatMap fun entry =>
        (attached texts input entry.2).map Attachment.source := by
  have hentries := foldl_entries to_json search_json input.zipIdx []
  rw [List.flatMap_nil, List.nil_append] at hentries
  unfold layout held
  rw [← hentries, List.flatMap_assoc]

theorem held_nodup (input : List (ResponseItem β)) :
    ((layout to_json search_json input).flatMap (held texts input)).Nodup := by
  rw [held_layout, List.nodup_flatMap]
  constructor
  · intro entry _
    exact (sources_nodup input).sublist (List.filter_sublist.map _)
  · have hdistinct : (input.zipIdx.filter fun entry => (tool_call entry.1).isSome).Pairwise
        fun a b => a.2 < b.2 := by
      apply List.Pairwise.filter
      rw [← List.pairwise_map, List.zipIdx_map_snd]
      exact List.pairwise_lt_range'
    refine hdistinct.imp fun {a b} hab r ha hb => ?_
    obtain ⟨text, hfirst⟩ := mem_attached.mp ha
    obtain ⟨text', hsecond⟩ := mem_attached.mp hb
    have heq := List.inj_on_of_nodup_map (sources_nodup input) hfirst hsecond rfl
    have hanchor : a.2 = b.2 := congrArg Attachment.anchor heq
    omega

/-- Reasoning is held once and by its anchor exactly when it is attached to a tool call there. -/
theorem once_on_anchor_iff {input : List (ResponseItem β)} {r a : Nat}
    (hbeside : beside input r = some a) :
    OnceOnAnchor to_json search_json texts input r a ↔
      input[a]?.any (fun item => (tool_call item).isSome) = true ∧
        ∃ text, (⟨r, a, text⟩ : Attachment) ∈ attachments texts input := by
  have hentries := foldl_entries to_json search_json input.zipIdx []
  rw [List.flatMap_nil, List.nil_append] at hentries
  have hcalls (entry : ResponseItem β × Nat) :
      (∃ group ∈ layout to_json search_json input, entry ∈ group.entries) ↔
        input[entry.2]? = some entry.1 ∧ (tool_call entry.1).isSome = true := by
    rw [← List.mem_flatMap, ← List.mem_zipIdx_iff_getElem?]
    unfold layout
    rw [hentries, List.mem_filter]
  constructor
  · rintro ⟨-, group, hgroup, ha, hr⟩
    obtain ⟨entry, hentry, hr⟩ := List.mem_flatMap.mp hr
    obtain ⟨hitem, hcall⟩ := (hcalls entry).mp ⟨group, hgroup, hentry⟩
    obtain ⟨text, hattachment⟩ := mem_attached.mp hr
    obtain ⟨-, -, -, hanchor⟩ := mem_attachments.mp hattachment
    obtain rfl : entry.2 = a :=
      Option.some.inj ((beside_of_anchor hanchor).symm.trans hbeside)
    exact ⟨by rw [hitem]; exact hcall, text, hattachment⟩
  · rintro ⟨hcall, text, hattachment⟩
    obtain ⟨item, hitem, hcall⟩ := any_getElem? hcall
    have hattached : r ∈ (attached texts input a).map Attachment.source :=
      mem_attached.mpr ⟨text, hattachment⟩
    obtain ⟨group, hgroup, hentry⟩ := (hcalls (item, a)).mpr ⟨hitem, hcall⟩
    have hheld : r ∈ held texts input group := List.mem_flatMap.mpr ⟨_, hentry, hattached⟩
    refine ⟨List.count_eq_one_of_mem (held_nodup input)
      (List.mem_flatMap.mpr ⟨group, hgroup, hheld⟩), group, hgroup, ?_, hheld⟩
    cases group with
    | plain message idx => cases hentry
    | calls entries => exact List.mem_map.mpr ⟨_, hentry, rfl⟩

/-! ## When a request is faithful -/

theorem not_user_from_anchor {input : List (ResponseItem β)} {r a : Nat}
    (h : Anchored texts input r a) (j : Nat) (later : ResponseItem β) (haj : a ≤ j)
    (hj : input[j]? = some later) : has_role "user" later = false := by
  obtain ⟨-, hr, hbeside⟩ := h
  by_cases hrj : r ≤ j
  · exact not_user_after hr hj hrj
  · rcases beside_cases hbeside with ⟨hrole, hra⟩ | ⟨rfl, -⟩
    · obtain rfl : j = a := by omega
      obtain ⟨item, hitem, hassistant⟩ := any_getElem? hrole
      obtain rfl := Option.some.inj (hitem.symm.trans hj)
      cases item with
      | Message id role content end_turn phase =>
        obtain rfl := beq_iff_eq.mp hassistant
        rfl
      | _ => rfl
    · omega

/-- Where reasoning has an item that it belongs to, the conversation does not end with the user. -/
theorem not_ends_with_user_of_anchored {input : List (ResponseItem β)} {r a : Nat}
    (h : Anchored texts input r a) : ¬ends_with_user to_json search_json input := by
  have hitem : ∃ item, input[a]? = some item ∧
      (has_role "assistant" item = true ∨ (tool_call item).isSome = true) := by
    rcases beside_cases h.2.2 with ⟨hrole, -⟩ | ⟨-, hcall⟩
    · obtain ⟨item, hitem, hrole⟩ := any_getElem? hrole
      exact ⟨item, hitem, .inl hrole⟩
    · obtain ⟨item, hitem, hcall⟩ := any_getElem? hcall
      exact ⟨item, hitem, .inr hcall⟩
  obtain ⟨item, hitem, hemits⟩ := hitem
  unfold ends_with_user
  refine last_role_not_user ?_ hitem (not_user_from_anchor h) ?_
  · intro item huser
    cases item with
    | Message id role content end_turn phase => exact beq_iff_eq.mpr (Option.some.inj huser)
    | _ => simp [tool_call, plain_message] at huser
  · cases item with
    | Message id role content end_turn phase => rfl
    | _ => simp_all [has_role, tool_call]

theorem emitted_role_not_user_of_anchored {input : List (ResponseItem β)} {r a : Nat}
    (h : Anchored texts input r a) (hcall : input[a]?.any is_anchor_call = true) :
    last_emitted_role input ≠ some "user".toList := by
  obtain ⟨item, hitem, hcall⟩ := any_getElem? hcall
  unfold last_emitted_role
  refine last_role_not_user ?_ hitem (not_user_from_anchor h) ?_
  · intro item huser
    cases item with
    | Message id role content end_turn phase => exact beq_iff_eq.mpr (Option.some.inj huser)
    | Other kind body => cases kind <;> simp at huser
    | _ => simp at huser
  · cases item <;> first | rfl | cases hcall

/-- A request pairs its results, keeps its calls and has all reasoning on its anchor exactly when
every output follows a call that is sent with its id, and all reasoning belongs to a function call,
a tool search or a local shell call. -/
theorem messages_faithful_iff (to_json : List β → Text) (search_json : β → Text)
    (texts : β → List Text) (full_instructions : Text) (input : List (ResponseItem β)) :
    Faithful to_json search_json texts full_instructions input ↔
      Sound to_json search_json texts input := by
  have hpaired := results_paired_iff to_json search_json
    (reasoning_by_anchor_index texts input) (.text full_instructions) input.zipIdx
  have hcalls := foldl_tool_calls to_json search_json
    (reasoning_by_anchor_index texts input) (.message "system".toList (.text full_instructions))
    input.zipIdx
  rw [List.zipIdx_map_fst] at hpaired hcalls
  constructor
  · intro h
    refine ⟨hpaired.mp h.results_paired, fun r a hanchored => ?_⟩
    have honce := h.reasoning_once (not_ends_with_user_of_anchored hanchored) r a hanchored
    obtain ⟨hcall, text, hattachment⟩ := (once_on_anchor_iff hanchored.2.2).mp honce
    obtain ⟨-, -, -, hanchor⟩ := mem_attachments.mp hattachment
    rcases (anchor_eq hanchored.2.2).mp hanchor with hrole | hcall'
    · obtain ⟨item, hitem, hrole⟩ := any_getElem? hrole
      rw [hitem, Option.any_some, has_role_not_call hrole] at hcall
      cases hcall
    · exact hcall'
  · intro h
    refine ⟨hpaired.mpr h.sent, hcalls, fun _ r a hanchored => ?_⟩
    have hcall := h.on_calls r a hanchored
    obtain ⟨text, htext⟩ := Option.isSome_iff_exists.mp hanchored.1
    obtain ⟨item, hitem, hitem_call⟩ := any_getElem? hcall
    refine (once_on_anchor_iff hanchored.2.2).mpr ⟨?_, text, mem_attachments.mpr ⟨?_, hanchored.2.1,
      htext, (anchor_eq hanchored.2.2).mpr (.inr hcall)⟩⟩
    · rw [hitem]
      exact role_of_anchor_call hitem_call
    · exact emitted_role_not_user_of_anchored hanchored hcall

end

/-! A local shell call that is sent with its older id, and reasoning beside an assistant message. -/

def no_json : List (List Text) → Text := fun _ => []

def search_json : List Text → Text := fun _ => []

def greeting : ResponseItem (List Text) :=
  .Message none "user".toList [.InputText "Hi.".toList] none none

def reasoning : ResponseItem (List Text) := .Reasoning none [] (some ["think".toList]) none

def shell_call : ResponseItem (List Text) := .LocalShellCall (some ['i']) (some ['c']) []

def function_output : ResponseItem (List Text) := .FunctionCallOutput ['c'] (.from_text [])

def answer : ResponseItem (List Text) :=
  .Message none "assistant".toList [.OutputText "Done.".toList] none none

theorem results_and_reasoning_are_lost :
    (OutputsAfterCalls [greeting, shell_call, function_output] ∧
      ¬Faithful no_json search_json id [] [greeting, shell_call, function_output]) ∧
    OutputsAfterCalls [greeting, reasoning, answer] ∧
      ¬Faithful no_json search_json id [] [greeting, reasoning, answer] := by
  refine ⟨⟨?_, fun h => ?_⟩, ?_, fun h => ?_⟩
  · have hcalls : OutputsAfterCalls ([greeting, shell_call] ++ [function_output]) := by
      unfold OutputsAfterCalls
      rw [paired_concat]
      refine ⟨?_, fun c hc => ?_⟩
      · rw [← List.singleton_append, paired_concat_of_none rfl, ← List.nil_append [greeting],
          paired_concat_of_none rfl]
        exact paired_nil
      · obtain rfl := Option.some.inj hc
        decide
    exact hcalls
  · have hsent := (results_paired_iff _ _ _ _ _).mp h.results_paired
    obtain ⟨j, call, hj, hcall, hmem⟩ := hsent 2 function_output ['c'] rfl rfl
    rcases (by omega : j = 0 ∨ j = 1) with rfl | rfl
    · obtain rfl := Option.some.inj hcall
      exact absurd hmem (by decide)
    · obtain rfl := Option.some.inj hcall
      exact absurd hmem (by decide)
  · intro i item c hi hout
    match i with
    | 0 =>
      obtain rfl := Option.some.inj hi
      cases hout
    | 1 =>
      obtain rfl := Option.some.inj hi
      cases hout
    | 2 =>
      obtain rfl := Option.some.inj hi
      cases hout
    | i + 3 => cases hi
  · have hanchored : Anchored id [greeting, reasoning, answer] 1 2 := ⟨rfl, rfl, rfl⟩
    have honce := h.reasoning_once (not_ends_with_user_of_anchored hanchored) 1 2 hanchored
    obtain ⟨hcall, -⟩ := (once_on_anchor_iff rfl).mp honce
    cases hcall

end Ecode.chat_messages
