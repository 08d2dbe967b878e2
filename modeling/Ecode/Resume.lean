-- The live history of a session and its rollout, and the history that a resume builds from the
-- rollout (core/src/codex/session.rs, core/src/rollout/recorder.rs, core/src/codex/compact.rs,
-- core/src/codex/compact_remote.rs).
import Ecode.HistoryBridge
import Ecode.Runs

namespace Ecode.resume

open compact runs

/-! ## The initial context -/

structure TurnContext where
  user_instructions : Option Text
  cwd : Text

/-- What an `EnvironmentContext`, or a full or delta emission of the tracker, says between its
tags. -/
structure EnvironmentItem where
  stream_id : Option Text
  is_delta : Bool
  body : Text

section

variable {β : Type}

def EnvironmentItem.to_item (e : EnvironmentItem) : ResponseItem β :=
  let text :=
    if e.is_delta then
      ENVIRONMENT_CONTEXT_DELTA_OPEN_TAG ++ ['\n'] ++ e.body ++ ['\n'] ++
        ENVIRONMENT_CONTEXT_DELTA_CLOSE_TAG
    else ENVIRONMENT_CONTEXT_OPEN_TAG ++ ['\n'] ++ e.body ++ ['\n'] ++ ENVIRONMENT_CONTEXT_CLOSE_TAG
  .Message e.stream_id "user".toList [.InputText text] none none

def user_instructions_item (directory text : Text) : ResponseItem β :=
  user_message ("# AGENTS.md instructions for ".toList ++ directory ++
    "\n\n<INSTRUCTIONS>\n".toList ++ text ++ "\n</INSTRUCTIONS>".toList)

/-- The items of `build_initial_context`, with what is emitted for the environment. -/
def build_initial_context (tc : TurnContext) (env : List EnvironmentItem) :
    List (ResponseItem β) :=
  (tc.user_instructions.map (user_instructions_item tc.cwd)).toList ++
    env.map EnvironmentItem.to_item

/-! ## The live history -/

def is_api_message : ResponseItem β → Bool
  | .Message _ role _ _ _ => role != "system".toList
  | .Other kind _ => kind != .AdditionalTools && kind != .Other
  | _ => true

/-! ## The rollout -/

inductive EventMsg where
  | UserMessage (message : Text) (images : Option (List Text))
  | AgentMessage (message : Text)
  | Error (message : Text)
  | CompactionCheckpointWarning (message : Text)
  | Other
  deriving DecidableEq

inductive RolloutItem (β : Type) where
  | SessionMeta (id : Text)
  | ResponseItem (item : Ecode.ResponseItem β)
  | Compacted (message : Text) (replacement_history : Option (List (Ecode.ResponseItem β)))
  | TurnContext
  | Event (id : Text) (msg : EventMsg)
  | EventMsg (msg : EventMsg)

def should_persist_response_item : ResponseItem β → Bool
  | .Other kind _ => kind != .AdditionalTools && kind != .Other
  | _ => true

-- Whether the content of a reasoning item has a `ReasoningText`.
variable (has_reasoning_text : β → Bool)

/-- An item as it is read back from its line: the success of an output has no place in the JSON,
and the content of a reasoning item is written only when it has a `ReasoningText`. -/
def read_back : ResponseItem β → ResponseItem β
  | .Reasoning id summary content encrypted_content =>
    .Reasoning id summary (content.filter has_reasoning_text) encrypted_content
  | .FunctionCallOutput call_id output =>
    .FunctionCallOutput call_id { output with success := none }
  | .CustomToolCallOutput call_id name output =>
    .CustomToolCallOutput call_id name { output with success := none }
  | item => item

/-- A user message that an event holds, with its images. -/
def recorded_user_message (id message : Text) (images : Option (List Text)) : ResponseItem β :=
  .Message (some id) "user".toList
    (.InputText message :: (images.getD []).map .InputImage) none none

/-- A line of the rollout, as `get_rollout_history` takes it over. -/
def read_line : RolloutItem β → Option (RolloutItem β)
  | .ResponseItem item => some (.ResponseItem (read_back has_reasoning_text item))
  | .Event id (.UserMessage message images) =>
    some (.ResponseItem (recorded_user_message id message images))
  | .TurnContext => none
  | item => some item

def is_session_meta : RolloutItem β → Bool
  | .SessionMeta _ => true
  | _ => false

/-- The items of a rollout file, none when it has no conversation id. -/
def get_rollout_history (file : List (RolloutItem β)) : Option (List (RolloutItem β)) :=
  let items := file.filterMap (read_line has_reasoning_text)
  if items.any is_session_meta then some items else none

/-- One item of the replay, with how often the initial context was built: `env` is what is emitted
at each time. None stands for a panic in a cut. -/
def replay (tc : TurnContext) (env : Nat → List EnvironmentItem) :
    List (ResponseItem β) × Nat → RolloutItem β → Option (List (ResponseItem β) × Nat)
  | (history, built), .ResponseItem item => some (history ++ [item], built)
  | (history, built), .Compacted message _ =>
    (collect_compaction_snippets history).map fun snippets =>
      (build_compacted_history (build_initial_context tc (env built)) snippets message, built + 1)
  | (history, built), .Event id (.UserMessage message _) =>
    some (history ++ [.Message (some id) "user".toList [.InputText message] none none], built)
  | s, _ => some s

def reconstruct_history_from_rollout (tc : TurnContext) (env : Nat → List EnvironmentItem)
    (items : List (RolloutItem β)) : Option (List (ResponseItem β)) :=
  (items.foldlM (replay tc env) (build_initial_context tc (env 0), 1)).map Prod.fst

/-! ## A session -/

structure Session (β : Type) where
  history : List (ResponseItem β)
  rollout : List (RolloutItem β)

namespace Session

def start (id : Text) : Session β := ⟨[], [.SessionMeta id]⟩

def record_conversation_items (items : List (ResponseItem β)) (s : Session β) : Session β where
  history := s.history ++ items.filter is_api_message
  rollout := s.rollout ++ (items.filter should_persist_response_item).map .ResponseItem

/-- `drain_to_completed`: the items of the answer go to the live history only. -/
def drain_to_completed (answer : List (ResponseItem β)) (s : Session β) : Session β :=
  { s with history := s.history ++ answer.filter is_api_message }

def replace_history (items : List (ResponseItem β)) (s : Session β) : Session β :=
  { s with history := items }

def persist_rollout_items (items : List (RolloutItem β)) (s : Session β) : Session β :=
  { s with rollout := s.rollout ++ items }

def checkpoint_warning (sub_id : Text) : RolloutItem β :=
  .Event sub_id (.CompactionCheckpointWarning
    "History checkpoint: earlier conversation compacted.".toList)

/-- What a completed compaction leaves in the rollout. -/
def persist_compacted (sub_id message display_message : Text) (s : Session β) : Session β :=
  s.persist_rollout_items [checkpoint_warning sub_id, .Compacted message none,
    .Event sub_id (.AgentMessage display_message)]

def display_message (summary_text : Text) : Text :=
  if Text.trim summary_text = [] then "Compact task completed.".toList else summary_text

/-- `perform_compaction` once its streams have completed: `answer` is what they reported. -/
def perform_compaction (tc : TurnContext) (sub_id : Text) (answer : List (ResponseItem β))
    (env : List EnvironmentItem) (s : Session β) : Option (Session β) := do
  let s := s.drain_to_completed answer
  let summary_text := (get_last_assistant_message_from_turn s.history).getD []
  let snippets ← collect_compaction_snippets s.history
  let new_history := build_compacted_history (build_initial_context tc env) snippets summary_text
  some ((s.replace_history new_history).persist_compacted sub_id summary_text
    (display_message summary_text))

/-- The same of `run_compact_task_inner_inline`, which records the new history. -/
def run_compact_task_inner_inline (tc : TurnContext) (sub_id : Text)
    (answer : List (ResponseItem β)) (env : List EnvironmentItem) (s : Session β) :
    Option (Session β) := do
  let s := s.drain_to_completed answer
  let summary_text := (get_last_assistant_message_from_turn s.history).getD []
  let snippets ← collect_compaction_snippets s.history
  let new_history := build_compacted_history (build_initial_context tc env) snippets summary_text
  some ((s.replace_history (new_history.filter is_api_message)).persist_compacted sub_id
    summary_text (display_message summary_text))

/-- `run_remote_compact_task_inner` with the history that the server gives. -/
def run_remote_compact_task_inner (sub_id : Text) (new_history : List (ResponseItem β))
    (s : Session β) : Session β :=
  (s.replace_history new_history).persist_compacted sub_id "Conversation history compacted.".toList
    "Compact task completed".toList

def COMPACTION_EMERGENCY_MESSAGE : Text :=
  ("⚠️ Compaction failed: The conversation history is too large to compact within the model's " ++
    "context limits. The history has been reset to prevent further errors. Please start a new " ++
    "session or manually reduce context by clearing history.").toList

def emergency_message (reason : Text) : Text :=
  if Text.trim reason = [] then COMPACTION_EMERGENCY_MESSAGE
  else reason ++ [' '] ++ COMPACTION_EMERGENCY_MESSAGE

def apply_emergency_compaction_fallback (tc : TurnContext) (sub_id reason : Text)
    (env : List EnvironmentItem) (s : Session β) : Session β :=
  (s.persist_rollout_items [.Event sub_id (.Error (emergency_message reason))]).replace_history
    (build_emergency_compacted_history (build_initial_context tc env) (emergency_message reason))

end Session

/-! ## Runs -/

inductive Op (β : Type) where
  | record_conversation_items (items : List (ResponseItem β))
  | perform_compaction (sub_id : Text) (answer : List (ResponseItem β))
      (env : List EnvironmentItem)
  | run_compact_task_inner_inline (sub_id : Text) (answer : List (ResponseItem β))
      (env : List EnvironmentItem)
  | run_remote_compact_task_inner (sub_id : Text) (new_history : List (ResponseItem β))
  | apply_emergency_compaction_fallback (sub_id reason : Text) (env : List EnvironmentItem)

/-- A step of a session, none when a cut panics. -/
def step (tc : TurnContext) (s : Session β) : Op β → Option (Session β)
  | .record_conversation_items items => some (s.record_conversation_items items)
  | .perform_compaction sub_id answer env => s.perform_compaction tc sub_id answer env
  | .run_compact_task_inner_inline sub_id answer env =>
    s.run_compact_task_inner_inline tc sub_id answer env
  | .run_remote_compact_task_inner sub_id new_history =>
    some (s.run_remote_compact_task_inner sub_id new_history)
  | .apply_emergency_compaction_fallback sub_id reason env =>
    some (s.apply_emergency_compaction_fallback tc sub_id reason env)

/-- The history that a resume builds. -/
def restored (tc : TurnContext) (env : Nat → List EnvironmentItem) (s : Session β) :
    Option (List (ResponseItem β)) :=
  (get_rollout_history has_reasoning_text s.rollout).bind
    (reconstruct_history_from_rollout tc env)

/-- A text by which the pruning of the history knows a status message or an environment context. -/
def has_status (text : Text) : Bool :=
  Text.contains text "== System Status ==".toList ||
    Text.contains text "Current working directory:".toList ||
    Text.contains text "Git branch:".toList ||
    Text.contains text ENVIRONMENT_CONTEXT_OPEN_TAG ||
    Text.contains text ENVIRONMENT_CONTEXT_DELTA_OPEN_TAG ||
    Text.contains text BROWSER_SNAPSHOT_OPEN_TAG

/-- An environment context, status or screenshot message. -/
def is_passing : ResponseItem β → Bool
  | .Message _ role content _ _ =>
    role == "user".toList && content.any fun
      | .InputText text => has_status text
      | .InputImage _ => true
      | .OutputText _ => false
  | _ => false

/-- The conversation is restored: what a resume builds is the live history up to environment
context, status and screenshot messages. -/
def Restores (tc : TurnContext) (env : Nat → List EnvironmentItem) (s : Session β) : Prop :=
  ∃ history, restored has_reasoning_text tc env s = some history ∧
    history.filter (fun item => !is_passing item) =
      s.history.filter (fun item => !is_passing item)

/-! ## What the rollout keeps -/

/-- An environment context message. -/
def is_environment_context : ResponseItem β → Bool
  | .Message _ role [.InputText text] _ _ =>
    role == "user".toList && (Text.contains text ENVIRONMENT_CONTEXT_OPEN_TAG ||
      Text.contains text ENVIRONMENT_CONTEXT_DELTA_OPEN_TAG)
  | _ => false

/-- The same items up to environment context messages. -/
def SameConversation (a b : List (ResponseItem β)) : Prop :=
  a.filter (fun item => !is_environment_context item) =
    b.filter (fun item => !is_environment_context item)

/-- The item is in the live history and comes back from the rollout as it is. -/
def survives : ResponseItem β → Prop
  | .Message _ role _ _ _ => role ≠ "system".toList
  | .Reasoning _ _ content _ => ∀ c ∈ content, has_reasoning_text c = true
  | .FunctionCallOutput _ output => output.success = none
  | .CustomToolCallOutput _ _ output => output.success = none
  | _ => True

/-- The bridge message of a history, none when a cut panics. -/
def bridge (history : List (ResponseItem β)) (summary_text : Text) : Option (ResponseItem β) :=
  (collect_compaction_snippets history).map fun snippets =>
    make_compaction_summary_message snippets summary_text

/-- The answer to the compaction leaves the bridge message as it is without the answer. -/
def unseen_answer (s : Session β) (answer : List (ResponseItem β)) : Prop :=
  let history := (s.drain_to_completed answer).history
  let summary_text := (get_last_assistant_message_from_turn history).getD []
  bridge s.history summary_text = bridge history summary_text

/-- The step keeps the live history and the rollout in step. -/
def keeps_step (s : Session β) : Op β → Prop
  | .record_conversation_items items => ∀ item ∈ items, survives has_reasoning_text item
  | .perform_compaction _ answer _ => unseen_answer s answer
  | .run_compact_task_inner_inline _ answer _ => unseen_answer s answer
  | .run_remote_compact_task_inner _ new_history =>
    ∃ message, bridge s.history "Conversation history compacted.".toList = some message ∧
      SameConversation new_history [message]
  | .apply_emergency_compaction_fallback _ reason _ =>
    SameConversation s.history [user_message (Session.emergency_message reason)]

/-! ## Environment context messages -/

theorem contains_append (p t : Text) : Text.contains (p ++ t) p = true := by
  unfold Text.contains
  rw [List.any_eq_true]
  exact ⟨p ++ t, (List.mem_tails _ _).mpr List.suffix_rfl, by simp⟩

theorem is_environment_context_to_item (e : EnvironmentItem) :
    is_environment_context (e.to_item : ResponseItem β) = true := by
  unfold EnvironmentItem.to_item is_environment_context
  dsimp only
  split
  · simp only [List.append_assoc, contains_append, Bool.or_true, BEq.rfl, Bool.and_self]
  · simp only [List.append_assoc, contains_append, Bool.true_or, BEq.rfl, Bool.and_self]

theorem is_passing_of_environment_context {item : ResponseItem β}
    (h : is_environment_context item = true) : is_passing item = true := by
  unfold is_environment_context at h
  split at h
  · next role text _ _ =>
    rw [Bool.and_eq_true, beq_iff_eq] at h
    obtain ⟨rfl, htag⟩ := h
    have hstatus : has_status text = true := by
      unfold has_status
      rcases Bool.or_eq_true_iff.mp htag with htag | htag <;> simp [htag]
    unfold is_passing
    simp [hstatus]
  · exact absurd h Bool.false_ne_true

theorem snippet_text_of_environment_context {item : ResponseItem β}
    (h : is_environment_context item = true) : snippet_text item = none := by
  unfold is_environment_context at h
  split at h
  · next role text _ _ =>
    rw [Bool.and_eq_true, beq_iff_eq] at h
    obtain ⟨hrole, htag⟩ := h
    have hprefix : is_session_prefix_message text = true := by
      unfold is_session_prefix_message InputMessageKind.from
      rw [if_pos rfl]
      by_cases hinstructions : Text.contains text USER_INSTRUCTIONS_OPEN_TAG
      · rw [if_pos hinstructions]
      · rw [if_neg hinstructions, if_pos htag]
    unfold snippet_text
    by_cases hempty : text = []
    · simp [hrole, hempty, content_items_to_text, content_text]
    · simp [hrole, hempty, content_items_to_text, content_text, Text.join, hprefix]
  · exact absurd h Bool.false_ne_true

namespace SameConversation

variable {a b c d : List (ResponseItem β)}

theorem append (h : SameConversation a b) (h' : SameConversation c d) :
    SameConversation (a ++ c) (b ++ d) := by
  unfold SameConversation at *
  rw [List.filter_append, List.filter_append, h, h']

theorem collect_eq (h : SameConversation a b) :
    collect_compaction_snippets a = collect_compaction_snippets b := by
  have hdropped (item : ResponseItem β) (hkeep : (!is_environment_context item) = false) :
      snippet_text item = none :=
    snippet_text_of_environment_context (by simpa using hkeep)
  rw [← collect_compaction_snippets_filter hdropped a, h,
    collect_compaction_snippets_filter hdropped b]

theorem bridge_eq (h : SameConversation a b) (summary_text : Text) :
    bridge a summary_text = bridge b summary_text := by
  unfold bridge
  rw [h.collect_eq]

/-- Histories with the same conversation are the same up to passing messages. -/
theorem not_passing (h : SameConversation a b) :
    a.filter (fun item => !is_passing item) = b.filter (fun item => !is_passing item) := by
  have hfilter (items : List (ResponseItem β)) :
      (items.filter fun item => !is_environment_context item).filter
          (fun item => !is_passing item) =
        items.filter fun item => !is_passing item := by
    rw [List.filter_filter]
    refine List.filter_congr fun item _ => ?_
    rcases henv : is_environment_context item with _ | _
    · simp
    · simp [is_passing_of_environment_context henv]
  rw [← hfilter a, h, hfilter b]

end SameConversation

/-- Without user instructions the initial context says nothing but the environment. -/
theorem initial_context_append {tc : TurnContext} (hinstructions : tc.user_instructions = none)
    (env : List EnvironmentItem) (items : List (ResponseItem β)) :
    SameConversation (build_initial_context tc env ++ items) items := by
  unfold SameConversation build_initial_context
  rw [hinstructions, List.filter_append]
  have hnone : (List.map EnvironmentItem.to_item env : List (ResponseItem β)).filter
      (fun item => !is_environment_context item) = [] := by
    rw [List.filter_eq_nil_iff]
    intro item hitem
    obtain ⟨e, -, rfl⟩ := List.mem_map.mp hitem
    simp [is_environment_context_to_item]
  simp [hnone]

/-! ## In step -/

/-- The replay of the rollout has come to the conversation of the live history. -/
def InStep (tc : TurnContext) (env : Nat → List EnvironmentItem) (s : Session β) : Prop :=
  (s.rollout.filterMap (read_line has_reasoning_text)).any is_session_meta = true ∧
    ∃ history built, (s.rollout.filterMap (read_line has_reasoning_text)).foldlM (replay tc env)
        (build_initial_context tc (env 0), 1) = some (history, built) ∧
      SameConversation history s.history

variable {has_reasoning_text} {tc : TurnContext} {env : Nat → List EnvironmentItem}

theorem InStep.restores {s : Session β} (h : InStep has_reasoning_text tc env s) :
    Restores has_reasoning_text tc env s := by
  obtain ⟨hmeta, history, built, hreplay, hsame⟩ := h
  refine ⟨history, ?_, hsame.not_passing⟩
  unfold restored get_rollout_history reconstruct_history_from_rollout
  rw [if_pos hmeta, Option.bind_some, hreplay]
  rfl

theorem start_in_step (hinstructions : tc.user_instructions = none) (id : Text) :
    InStep has_reasoning_text tc env (Session.start id) := by
  refine ⟨rfl, _, _, rfl, ?_⟩
  have hinitial := initial_context_append hinstructions (env 0) ([] : List (ResponseItem β))
  rwa [List.append_nil] at hinitial

/-- Lines that are written to the rollout are replayed after those before. -/
theorem InStep.write {s s' : Session β} (h : InStep has_reasoning_text tc env s)
    {lines : List (RolloutItem β)} (hrollout : s'.rollout = s.rollout ++ lines)
    (hlines : ∀ history built, SameConversation history s.history →
      ∃ history' built', (lines.filterMap (read_line has_reasoning_text)).foldlM (replay tc env)
          (history, built) = some (history', built') ∧ SameConversation history' s'.history) :
    InStep has_reasoning_text tc env s' := by
  obtain ⟨hmeta, history, built, hreplay, hsame⟩ := h
  obtain ⟨history', built', hreplay', hsame'⟩ := hlines history built hsame
  unfold InStep
  rw [hrollout, List.filterMap_append]
  refine ⟨by rw [List.any_append, hmeta, Bool.true_or], history', built', ?_, hsame'⟩
  rw [List.foldlM_append, hreplay]
  exact hreplay'

theorem read_back_of_survives {item : ResponseItem β} (h : survives has_reasoning_text item) :
    read_back has_reasoning_text item = item := by
  unfold read_back
  split
  · next content _ =>
    rcases content with _ | c
    · rfl
    · have hc : has_reasoning_text c = true := h c rfl
      simp [hc]
  · next output =>
    have hsuccess : output.success = none := h
    rw [← hsuccess]
  · next output =>
    have hsuccess : output.success = none := h
    rw [← hsuccess]
  · rfl

theorem is_api_message_of_survives {item : ResponseItem β} (h : survives has_reasoning_text item) :
    is_api_message item = should_persist_response_item item := by
  cases item with
  | Message id role content end_turn phase =>
    have hrole : role ≠ "system".toList := h
    exact bne_iff_ne.mpr hrole
  | _ => rfl

/-- The replay of items appends them. -/
theorem replay_items (items : List (ResponseItem β)) (history : List (ResponseItem β))
    (built : Nat) :
    (items.map RolloutItem.ResponseItem).foldlM (replay tc env) (history, built) =
      some (history ++ items, built) := by
  induction items generalizing history with
  | nil => simp
  | cons item items ih =>
    rw [List.map_cons, List.foldlM_cons, replay, Option.bind_eq_bind, Option.bind_some, ih,
      List.append_assoc, List.singleton_append]

theorem InStep.record {s : Session β} (h : InStep has_reasoning_text tc env s)
    {items : List (ResponseItem β)} (hsurvive : ∀ item ∈ items, survives has_reasoning_text item) :
    InStep has_reasoning_text tc env (s.record_conversation_items items) := by
  refine h.write rfl fun history built hsame => ?_
  have hread : ((items.filter should_persist_response_item).map RolloutItem.ResponseItem).filterMap
      (read_line has_reasoning_text) =
        (items.filter is_api_message).map RolloutItem.ResponseItem := by
    rw [List.filterMap_map, List.filter_congr fun item hitem =>
      is_api_message_of_survives (hsurvive item hitem), ← List.filterMap_eq_map]
    refine List.filterMap_congr fun item hitem => ?_
    have hsurvives := hsurvive item (List.mem_of_mem_filter hitem)
    simp only [Function.comp_apply, read_line, read_back_of_survives hsurvives]
  rw [hread, replay_items]
  exact ⟨_, _, rfl, hsame.append rfl⟩

/-- A compaction stays in step when the bridge message that the replay builds is what the live
history becomes. -/
theorem InStep.compacted {s : Session β} (h : InStep has_reasoning_text tc env s)
    (hinstructions : tc.user_instructions = none) {sub_id message display : Text}
    {new_history : List (ResponseItem β)} {bridge_message : ResponseItem β}
    (hbridge : bridge s.history message = some bridge_message)
    (hnew : SameConversation new_history [bridge_message]) :
    InStep has_reasoning_text tc env
      ((s.replace_history new_history).persist_compacted sub_id message display) := by
  refine h.write rfl fun history built hsame => ?_
  rw [← hsame.bridge_eq] at hbridge
  obtain ⟨snippets, hsnippets, rfl⟩ := Option.map_eq_some_iff.mp hbridge
  refine ⟨build_compacted_history (build_initial_context tc (env built)) snippets message,
    built + 1, ?_, (initial_context_append hinstructions _ _).trans hnew.symm⟩
  simp only [Session.checkpoint_warning, List.filterMap_cons, read_line, List.filterMap_nil,
    List.foldlM_cons, List.foldlM_nil, replay, Option.bind_eq_bind, Option.bind_some, hsnippets,
    Option.map_some]
  rfl

theorem InStep.emergency {s : Session β} (h : InStep has_reasoning_text tc env s)
    (hinstructions : tc.user_instructions = none) {sub_id reason : Text}
    {emitted : List EnvironmentItem}
    (hwarned : SameConversation s.history [user_message (Session.emergency_message reason)]) :
    InStep has_reasoning_text tc env
      (s.apply_emergency_compaction_fallback tc sub_id reason emitted) := by
  refine h.write rfl fun history built hsame => ⟨history, built, rfl, ?_⟩
  exact (hsame.trans hwarned).trans (initial_context_append hinstructions _ _).symm

/-- The two local compactions differ only in a filter that drops nothing. -/
theorem initial_context_is_api_message (emitted : List EnvironmentItem)
    {item : ResponseItem β} (h : item ∈ build_initial_context tc emitted) :
    is_api_message item = true := by
  unfold build_initial_context at h
  rcases List.mem_append.mp h with h | h
  · obtain ⟨text, -, rfl⟩ := Option.map_eq_some_iff.mp (Option.mem_toList.mp h)
    rfl
  · obtain ⟨e, -, rfl⟩ := List.mem_map.mp h
    rfl

theorem inline_eq_perform (s : Session β) (sub_id : Text) (answer : List (ResponseItem β))
    (emitted : List EnvironmentItem) :
    s.run_compact_task_inner_inline tc sub_id answer emitted =
      s.perform_compaction tc sub_id answer emitted := by
  unfold Session.run_compact_task_inner_inline Session.perform_compaction
  have hfilter (snippets : List CompactionSnippet) (summary_text : Text) :
      (build_compacted_history (build_initial_context tc emitted : List (ResponseItem β)) snippets
        summary_text).filter is_api_message =
      build_compacted_history (build_initial_context tc emitted) snippets summary_text := by
    unfold build_compacted_history
    rw [List.filter_append, List.filter_eq_self.mpr fun item hitem =>
      initial_context_is_api_message emitted hitem]
    rfl
  simp only [hfilter]

theorem InStep.perform {s s' : Session β} (h : InStep has_reasoning_text tc env s)
    (hinstructions : tc.user_instructions = none) {sub_id : Text} {answer : List (ResponseItem β)}
    {emitted : List EnvironmentItem} (hunseen : unseen_answer s answer)
    (hs : s.perform_compaction tc sub_id answer emitted = some s') :
    InStep has_reasoning_text tc env s' := by
  unfold Session.perform_compaction at hs
  obtain ⟨snippets, hsnippets, hs'⟩ := Option.bind_eq_some_iff.mp hs
  obtain rfl := Option.some.inj hs'
  refine h.compacted hinstructions (hunseen.trans ?_) (initial_context_append hinstructions _ _)
  unfold bridge
  rw [hsnippets]
  rfl

theorem step_in_step (hinstructions : tc.user_instructions = none) (s : Session β) (op : Op β)
    (s' : Session β) (h : InStep has_reasoning_text tc env s)
    (hop : keeps_step has_reasoning_text s op) (hs : step tc s op = some s') :
    InStep has_reasoning_text tc env s' := by
  cases op with
  | record_conversation_items items =>
    obtain rfl := Option.some.inj hs
    exact h.record hop
  | perform_compaction sub_id answer emitted => exact h.perform hinstructions hop hs
  | run_compact_task_inner_inline sub_id answer emitted =>
    rw [step, inline_eq_perform] at hs
    exact h.perform hinstructions hop hs
  | run_remote_compact_task_inner sub_id new_history =>
    obtain rfl := Option.some.inj hs
    obtain ⟨message, hbridge, hnew⟩ := hop
    exact h.compacted hinstructions hbridge hnew
  | apply_emergency_compaction_fallback sub_id reason emitted =>
    obtain rfl := Option.some.inj hs
    exact h.emergency hinstructions hop

/-- Without user instructions every run whose steps keep the live history and the rollout in step
is restored, whatever the environment is when it is resumed. -/
theorem conversation_is_restored {β : Type} {has_reasoning_text : β → Bool} {tc : TurnContext}
    (hinstructions : tc.user_instructions = none) {id : Text} {s : Session β}
    (h : Reached (step tc) (Session.start id) (keeps_step has_reasoning_text) s)
    (env : Nat → List EnvironmentItem) : Restores has_reasoning_text tc env s :=
  InStep.restores (h.invariant (start_in_step hinstructions id) (step_in_step hinstructions))

end

/-! A run with a compaction whose stream reports reasoning only, and one with an answer of which
the rollout has the summary but not the exchange. -/

def no_instructions : TurnContext := ⟨none, "/repo".toList⟩

def environment : EnvironmentItem := ⟨none, false, "  <cwd>/repo</cwd>".toList⟩

def assistant_message (text : Text) : ResponseItem Unit :=
  .Message none "assistant".toList [.OutputText text] none none

def greeting : Op Unit :=
  .record_conversation_items [user_message "Hi.".toList, assistant_message "Hello.".toList]

theorem restored_after_compaction :
    ∃ s : Session Unit, Reached (step no_instructions) (Session.start "c".toList)
        (keeps_step fun _ => true) s ∧
      Restores (fun _ => true) no_instructions (fun _ => [environment]) s := by
  have hrun : Reached (step no_instructions) (Session.start "c".toList) (keeps_step fun _ => true)
      _ :=
    .step (a := .record_conversation_items [assistant_message "Ready.".toList])
      (.step (a := .perform_compaction "s".toList [.Reasoning none () none none] [environment])
        (.step (a := greeting) .start
          (by simp [greeting, keeps_step, survives, user_message, assistant_message]) rfl) rfl rfl)
      (by simp [keeps_step, survives, assistant_message]) rfl
  exact ⟨_, hrun, conversation_is_restored rfl hrun _⟩

def content : ResponseItem Unit → List ContentItem
  | .Message _ _ content _ _ => content
  | _ => []

theorem answer_is_not_restored :
    ∃ s : Session Unit, Reached (step no_instructions) (Session.start "c".toList)
        (fun _ _ => True) s ∧
      ¬Restores (fun _ => true) no_instructions (fun _ => [environment]) s := by
  refine ⟨_, .step (a := .perform_compaction "s".toList [assistant_message "Greeted.".toList]
    [environment]) (.step (a := greeting) .start trivial rfl) trivial rfl, ?_⟩
  rintro ⟨history, hrestored, heq⟩
  obtain rfl := Option.some.inj hrestored
  have hcontent := congrArg (List.map content) heq
  exact absurd hcontent (by decide +kernel)

end Ecode.resume
