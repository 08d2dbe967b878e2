-- The compaction of a conversation (core/src/codex/compact.rs): what is sent to the
-- model, and the two retry loops that drop the oldest item when it is too long.
import Ecode.Pairing
import Ecode.ResponseItems
import Ecode.Truncate

namespace Ecode.compact

open pairing truncate

variable {β : Type}

/-! ## What is sent -/

def COMPACT_TEXT_CONTENT_MAX_BYTES : Nat := 8 * 1024

def COMPACT_TOOL_ARGS_MAX_BYTES : Nat := 4 * 1024

def COMPACT_TOOL_OUTPUT_MAX_BYTES : Nat := 4 * 1024

def COMPACT_IMAGE_URL_MAX_BYTES : Nat := 512

def truncate_for_compact (text : Text) (max_bytes : Nat) : Option Text :=
  if Text.len text ≤ max_bytes then some text else (truncate_middle text max_bytes).map Prod.fst

def sanitize_content : ContentItem → Option ContentItem
  | .InputText text =>
    (truncate_for_compact text COMPACT_TEXT_CONTENT_MAX_BYTES).map .InputText
  | .OutputText text =>
    (truncate_for_compact text COMPACT_TEXT_CONTENT_MAX_BYTES).map .OutputText
  | .InputImage image_url =>
    if Text.starts_with image_url "data:".toList ∨
        Text.len image_url > COMPACT_IMAGE_URL_MAX_BYTES then
      some (.InputText ("(image omitted for compaction; ".toList ++
        Text.ofNat (Text.len image_url) ++ " bytes)".toList))
    else some (.InputImage image_url)

/-- One item of `sanitize_items_for_compact`: a message without content is left out. -/
def sanitize_item (to_json : List β → Text) : ResponseItem β → Option (Option (ResponseItem β))
  | .Message id role content _ _ => do
    let content ← content.mapM sanitize_content
    some (if content = [] then none else some (.Message id role content none none))
  | .FunctionCall id name namespace_ arguments call_id => do
    let arguments ← truncate_for_compact arguments COMPACT_TOOL_ARGS_MAX_BYTES
    some (some (.FunctionCall id name namespace_ arguments call_id))
  | .FunctionCallOutput call_id output => do
    let content ← truncate_for_compact (output.to_string to_json) COMPACT_TOOL_OUTPUT_MAX_BYTES
    some (some (.FunctionCallOutput call_id
      { FunctionCallOutputPayload.from_text content with success := output.success }))
  | .CustomToolCall id status call_id name namespace_ input => do
    let input ← truncate_for_compact input COMPACT_TOOL_ARGS_MAX_BYTES
    some (some (.CustomToolCall id status call_id name namespace_ input))
  | .CustomToolCallOutput call_id name output => do
    let content ← truncate_for_compact (output.to_string to_json) COMPACT_TOOL_OUTPUT_MAX_BYTES
    some (some (.CustomToolCallOutput call_id name (.from_text content)))
  | .Reasoning id summary _ _ => some (some (.Reasoning id summary none none))
  | item => some (some item)

/-- `sanitize_items_for_compact`. There are no items when a cut panics. -/
def sanitize_items_for_compact (to_json : List β → Text) :
    List (ResponseItem β) → Option (List (ResponseItem β))
  | [] => some []
  | item :: items => do
    let kept ← sanitize_item to_json item
    let rest ← sanitize_items_for_compact to_json items
    some (kept.toList ++ rest)

/-- The ids under which an item is seen as a call. -/
def call_ids : ResponseItem β → List Text
  | .FunctionCall _ _ _ _ call_id => [call_id]
  | .ToolSearchCall _ call_id _ => call_id.toList
  | .CustomToolCall _ _ call_id _ _ _ => [call_id]
  | .LocalShellCall id call_id _ => call_id.toList ++ id.toList
  | _ => []

/-- The id of an item that is dropped when no call has it. -/
def pruned_id : ResponseItem β → Option Text
  | .FunctionCallOutput call_id _ => some call_id
  | .ToolSearchOutput call_id _ => call_id
  | .CustomToolCallOutput call_id _ _ => some call_id
  | _ => none

/-- The id of a function call output or a custom tool call output. -/
def output_id : ResponseItem β → Option Text
  | .FunctionCallOutput call_id _ => some call_id
  | .CustomToolCallOutput call_id _ _ => some call_id
  | _ => none

def prune_orphan_tool_outputs (items : List (ResponseItem β)) : List (ResponseItem β) :=
  let seen_calls := items.flatMap call_ids
  items.filter fun item =>
    match pruned_id item with
    | some call_id => decide (call_id ∈ seen_calls)
    | none => true

/-! ## The retry loops -/

def looks_like_context_overflow (message : Text) : Bool :=
  let lower := Text.to_ascii_lowercase message
  let has (p : String) := Text.contains lower p.toList
  has "context_length_exceeded" || has "context length exceeded" ||
    (has "context window" && (has "exceed" || has "exceeded" || has "full" || has "too long")) ||
    has "maximum context length" || has "exceeds the context window"

def is_context_overflow_error : CodexErr → Bool
  | .UnexpectedStatus body => looks_like_context_overflow body
  | .Stream message => looks_like_context_overflow message
  | .RateLimitExceeded message => looks_like_context_overflow message
  | _ => false

def MAX_COMPACT_CONTEXT_OVERFLOW_TRIMS : Nat := 32

def MAX_COMPACT_USAGE_LIMIT_RETRIES : Nat := 2

structure RetryState (β : Type) where
  turn_input : List (ResponseItem β)
  retries : Nat
  truncated_count : Nat
  usage_limit_retries : Nat

/-- Why a loop stops. -/
inductive Stopped where
  | Completed
  | Interrupted
  | Emergency (reason : Text)
  | Failed (error : CodexErr)
  deriving DecidableEq, Repr

def overflow_reason (truncated_count : Nat) : Text :=
  if truncated_count ≥ MAX_COMPACT_CONTEXT_OVERFLOW_TRIMS then
    "Compaction trimmed ".toList ++ Text.ofNat truncated_count ++
      " items but still exceeded the context window.".toList
  else "Compaction failed: context overflow even with minimal input.".toList

/-- What both loops do with an error: the state of the next round, or the end. -/
def on_error (max_retries : Nat) (s : RetryState β) (e : CodexErr) : RetryState β ⊕ Stopped :=
  match e with
  | .Interrupted => .inr .Interrupted
  | .UsageLimitReached =>
    if s.usage_limit_retries ≥ MAX_COMPACT_USAGE_LIMIT_RETRIES then
      .inr (.Emergency "Compaction hit persistent usage limits and cannot continue.".toList)
    else .inl { s with usage_limit_retries := s.usage_limit_retries + 1, retries := 0 }
  | e =>
    if is_context_overflow_error e then
      if s.turn_input.length > 1 ∧ s.truncated_count < MAX_COMPACT_CONTEXT_OVERFLOW_TRIMS then
        .inl ⟨s.turn_input.tail, 0, s.truncated_count + 1, 0⟩
      else .inr (.Emergency (overflow_reason s.truncated_count))
    else if s.retries < max_retries then .inl { s with retries := s.retries + 1 }
    else .inr (.Failed e)

/-- The prompts of a retry loop that prepares its input with `prepare`, for the answers of the
model: none when it completes. After the last answer the loop waits. -/
def retry_loop (prepare : List (ResponseItem β) → List (ResponseItem β)) (max_retries : Nat) :
    List (Option CodexErr) → RetryState β → List (List (ResponseItem β))
  | answers, s =>
    let turn_input := prepare s.turn_input
    turn_input ::
      match answers with
      | [] | none :: _ => []
      | some e :: answers =>
        match on_error max_retries { s with turn_input } e with
        | .inl s => retry_loop prepare max_retries answers s
        | .inr _ => []

def RetryState.start (turn_input : List (ResponseItem β)) : RetryState β := ⟨turn_input, 0, 0, 0⟩

/-- The prompts that `perform_compaction` sends. -/
def perform_compaction_prompts (to_json : List β → Text) (max_retries : Nat)
    (turn_input : List (ResponseItem β)) (answers : List (Option CodexErr)) :
    List (List (ResponseItem β)) :=
  match sanitize_items_for_compact to_json turn_input with
  | some turn_input => retry_loop prune_orphan_tool_outputs max_retries answers (.start turn_input)
  | none => []

/-- The prompts that `run_compact_task_inner_inline` sends. -/
def run_compact_task_inner_inline_prompts (to_json : List β → Text) (max_retries : Nat)
    (turn_input : List (ResponseItem β)) (answers : List (Option CodexErr)) :
    List (List (ResponseItem β)) :=
  match sanitize_items_for_compact to_json turn_input with
  | some turn_input => retry_loop id max_retries answers (.start turn_input)
  | none => []

/-! ## Calls and outputs in a prompt -/

/-- Every function call output and custom tool call output stands after its call. -/
def paired (items : List (ResponseItem β)) : Prop := Paired call_ids output_id items

theorem pruned_calls_nothing (item : ResponseItem β) (c : Text) (h : pruned_id item = some c) :
    call_ids item = [] := by
  cases item <;> first | rfl | cases h

theorem output_is_pruned (item : ResponseItem β) (c : Text) (h : output_id item = some c) :
    pruned_id item = some c := by
  cases item <;> first | exact h | cases h

theorem output_calls_none (item : ResponseItem β) (c : Text) (h : output_id item = some c) :
    call_ids item = [] :=
  output_calls_nothing pruned_calls_nothing output_is_pruned item c h

theorem sanitize_item_ids {to_json : List β → Text} {item : ResponseItem β}
    {kept : Option (ResponseItem β)} (h : sanitize_item to_json item = some kept) :
    (kept = none ∧ call_ids item = [] ∧ output_id item = none) ∨
    ∃ item', kept = some item' ∧ call_ids item' = call_ids item ∧
      output_id item' = output_id item := by
  cases item with
  | Message id role content end_turn phase =>
    obtain ⟨content', _, h⟩ := Option.bind_eq_some_iff.mp h
    obtain rfl := Option.some.inj h
    split
    · exact .inl ⟨rfl, rfl, rfl⟩
    · exact .inr ⟨_, rfl, rfl, rfl⟩
  | FunctionCall =>
    obtain ⟨_, _, h⟩ := Option.bind_eq_some_iff.mp h
    exact .inr ⟨_, (Option.some.inj h).symm, rfl, rfl⟩
  | FunctionCallOutput =>
    obtain ⟨_, _, h⟩ := Option.bind_eq_some_iff.mp h
    exact .inr ⟨_, (Option.some.inj h).symm, rfl, rfl⟩
  | CustomToolCall =>
    obtain ⟨_, _, h⟩ := Option.bind_eq_some_iff.mp h
    exact .inr ⟨_, (Option.some.inj h).symm, rfl, rfl⟩
  | CustomToolCallOutput =>
    obtain ⟨_, _, h⟩ := Option.bind_eq_some_iff.mp h
    exact .inr ⟨_, (Option.some.inj h).symm, rfl, rfl⟩
  | _ => exact .inr ⟨_, (Option.some.inj h).symm, rfl, rfl⟩

/-- Sanitizing keeps the ids in their order. -/
theorem sanitize_mentions {to_json : List β → Text} {items items' : List (ResponseItem β)}
    (h : sanitize_items_for_compact to_json items = some items') (c : Text) :
    (next_mention call_ids output_id c items').map (fun x => c ∈ call_ids x) =
      (next_mention call_ids output_id c items).map fun x => c ∈ call_ids x := by
  induction items generalizing items' with
  | nil =>
    obtain rfl := Option.some.inj h
    rfl
  | cons item items ih =>
    obtain ⟨kept, hkept, h⟩ := Option.bind_eq_some_iff.mp h
    obtain ⟨rest, hrest, h⟩ := Option.bind_eq_some_iff.mp h
    obtain rfl := Option.some.inj h
    rcases sanitize_item_ids hkept with ⟨rfl, hcalls, hout⟩ | ⟨item', rfl, hcalls, hout⟩
    · have hsilent : mentions call_ids output_id c item = false := by
        simp [mentions, hcalls, hout]
      simpa [next_mention, hsilent] using ih hrest
    · have hsame : mentions call_ids output_id c item' = mentions call_ids output_id c item := by
        unfold mentions
        rw [hcalls, hout]
      rcases hm : mentions call_ids output_id c item with _ | _
      · simpa [next_mention, hsame, hm] using ih hrest
      · simp [next_mention, hsame, hm, hcalls]

theorem sanitize_paired {to_json : List β → Text} {items items' : List (ResponseItem β)}
    (h : sanitize_items_for_compact to_json items = some items') (hp : paired items) :
    paired items' :=
  paired_of_same_mentions output_calls_none (sanitize_mentions h) hp

/-! ## What the loops drop -/

/-- The items that the first `n` overflows drop, each with the items that are left. -/
def drops (prepare : List (ResponseItem β) → List (ResponseItem β)) :
    Nat → List (ResponseItem β) → List (ResponseItem β × List (ResponseItem β))
  | 0, _ => []
  | n + 1, items =>
    match prepare items with
    | x :: y :: rest => (x, y :: rest) :: drops prepare n (y :: rest)
    | _ => []

/-- An overflow drops the first item while there are two and the trims are not used up. -/
theorem on_overflow {max_retries : Nat} {s : RetryState β} {e : CodexErr}
    (he : is_context_overflow_error e = true) :
    on_error max_retries s e =
      if s.turn_input.length > 1 ∧ s.truncated_count < MAX_COMPACT_CONTEXT_OVERFLOW_TRIMS then
        .inl ⟨s.turn_input.tail, 0, s.truncated_count + 1, 0⟩
      else .inr (.Emergency (overflow_reason s.truncated_count)) := by
  cases e with
  | Interrupted => cases he
  | UsageLimitReached => cases he
  | Other => cases he
  | _ => simp only [on_error, he, if_true]

theorem retry_loop_head (prepare : List (ResponseItem β) → List (ResponseItem β))
    (max_retries : Nat) (answers : List (Option CodexErr)) (s : RetryState β) :
    prepare s.turn_input ∈ retry_loop prepare max_retries answers s := by
  unfold retry_loop
  exact List.mem_cons_self

/-- The prompts of a loop are paired exactly when no drop cuts a call from its output, where
`cuts` says when a drop does so. -/
theorem loop_paired_iff {prepare : List (ResponseItem β) → List (ResponseItem β)}
    {cuts : ResponseItem β → List (ResponseItem β) → Bool}
    (hcuts : ∀ x rest, paired (x :: rest) → (paired (prepare rest) ↔ cuts x rest = false))
    (max_retries : Nat) {errors : List CodexErr}
    (he : ∀ e ∈ errors, is_context_overflow_error e = true) {s : RetryState β}
    (hs : paired (prepare s.turn_input)) :
    (∀ prompt ∈ retry_loop prepare max_retries (errors.map some) s, paired prompt) ↔
      ∀ d ∈ drops prepare
        (min errors.length (MAX_COMPACT_CONTEXT_OVERFLOW_TRIMS - s.truncated_count))
        s.turn_input, cuts d.1 d.2 = false := by
  induction errors generalizing s with
  | nil => simp [retry_loop, drops, hs]
  | cons e errors ih =>
    have hrest : ∀ e ∈ errors, is_context_overflow_error e = true :=
      fun e' he' => he e' (List.mem_cons_of_mem _ he')
    simp only [List.map_cons, retry_loop, on_overflow (he e List.mem_cons_self)]
    by_cases hroom : s.truncated_count < MAX_COMPACT_CONTEXT_OVERFLOW_TRIMS
    · have hn : min (e :: errors).length (MAX_COMPACT_CONTEXT_OVERFLOW_TRIMS - s.truncated_count) =
          min errors.length (MAX_COMPACT_CONTEXT_OVERFLOW_TRIMS - (s.truncated_count + 1)) + 1 := by
        rw [List.length_cons]
        omega
      rw [hn, drops]
      rcases hprep : prepare s.turn_input with _ | ⟨x, _ | ⟨y, rest⟩⟩
      · rw [hprep] at hs
        simp [hs]
      · rw [hprep] at hs
        simp [hs]
      · rw [hprep] at hs
        have hstep := hcuts x (y :: rest) hs
        simp only [List.length_cons, List.tail_cons, List.mem_cons, forall_eq_or_imp]
        rw [if_pos ⟨by omega, hroom⟩, ← hstep]
        dsimp only
        constructor
        · rintro ⟨_, hall⟩
          have hnext : paired (prepare (y :: rest)) := hall _ (retry_loop_head _ _ _ _)
          exact ⟨hnext, (ih hrest hnext).mp hall⟩
        · rintro ⟨hnext, hdrops⟩
          exact ⟨hs, (ih (s := ⟨y :: rest, 0, s.truncated_count + 1, 0⟩) hrest hnext).mpr hdrops⟩
    · have hn : min (e :: errors).length (MAX_COMPACT_CONTEXT_OVERFLOW_TRIMS - s.truncated_count) =
          0 := by omega
      rw [hn, if_neg (fun h => hroom h.2)]
      simp [drops, hs]

theorem prune_eq_kept (items : List (ResponseItem β)) :
    prune_orphan_tool_outputs items = kept call_ids pruned_id items := by
  unfold prune_orphan_tool_outputs kept called
  dsimp only
  congr 1
  funext item
  cases pruned_id item <;> simp

theorem prune_cuts (x : ResponseItem β) (rest : List (ResponseItem β)) (h : paired (x :: rest)) :
    paired (prune_orphan_tool_outputs rest) ↔ severs_live call_ids output_id x rest = false := by
  rw [prune_eq_kept]
  exact paired_kept_tail_iff pruned_calls_nothing output_is_pruned h

theorem inline_cuts (x : ResponseItem β) (rest : List (ResponseItem β)) (h : paired (x :: rest)) :
    paired (id rest) ↔ severs call_ids output_id x rest = false :=
  paired_tail_iff output_calls_none h

theorem prune_paired {items : List (ResponseItem β)} (h : paired items) :
    paired (prune_orphan_tool_outputs items) := by
  rw [prune_eq_kept]
  exact paired_kept pruned_calls_nothing output_is_pruned h

/-- Every prompt of the two compactions has every output after its call. -/
def prompts_paired (to_json : List β → Text) (max_retries : Nat)
    (turn_input : List (ResponseItem β)) (answers : List (Option CodexErr)) : Prop :=
  (∀ prompt ∈ perform_compaction_prompts to_json max_retries turn_input answers, paired prompt) ∧
  ∀ prompt ∈ run_compact_task_inner_inline_prompts to_json max_retries turn_input answers,
    paired prompt

/-- No call that the inline loop drops is next met at an output, and no call that
`perform_compaction` drops is next met at an output and called again. -/
def drops_cut_nothing (to_json : List β → Text) (turn_input : List (ResponseItem β))
    (overflows : Nat) : Prop :=
  ∀ items, sanitize_items_for_compact to_json turn_input = some items →
    (∀ d ∈ drops prune_orphan_tool_outputs (min overflows MAX_COMPACT_CONTEXT_OVERFLOW_TRIMS)
      items, severs_live call_ids output_id d.1 d.2 = false) ∧
    ∀ d ∈ drops id (min overflows MAX_COMPACT_CONTEXT_OVERFLOW_TRIMS) items,
      severs call_ids output_id d.1 d.2 = false

/-- For every history with its outputs after their calls and every run of overflows, the prompts
are paired exactly when no drop cuts a call from its output. -/
theorem prompts_paired_iff_drops_cut_nothing (to_json : List β → Text) (max_retries : Nat)
    {turn_input : List (ResponseItem β)} (hp : paired turn_input) {errors : List CodexErr}
    (he : ∀ e ∈ errors, is_context_overflow_error e = true) :
    prompts_paired to_json max_retries turn_input (errors.map some) ↔
      drops_cut_nothing to_json turn_input errors.length := by
  unfold prompts_paired drops_cut_nothing perform_compaction_prompts
    run_compact_task_inner_inline_prompts
  rcases hitems : sanitize_items_for_compact to_json turn_input with _ | items
  · simp
  · have hpaired := sanitize_paired hitems hp
    have hperform := loop_paired_iff prune_cuts max_retries he
      (s := .start items) (prune_paired hpaired)
    have hinline := loop_paired_iff inline_cuts max_retries he
      (s := .start items) hpaired
    dsimp only
    rw [hperform, hinline]
    simp only [Option.some.injEq, forall_eq', RetryState.start, Nat.sub_zero]

/-- An error that says the conversation is too long. -/
def overflow : CodexErr := .Stream "context window exceeded".toList

def function_call (call_id : Text) : ResponseItem Unit := .FunctionCall none [] none [] call_id

def function_output (call_id : Text) : ResponseItem Unit :=
  .FunctionCallOutput call_id (.from_text [])

def reasoning : ResponseItem Unit := .Reasoning none () none none

theorem sanitize_calls (call_id : Text) :
    sanitize_item (fun _ => []) (function_call call_id) = some (some (function_call call_id)) ∧
    sanitize_item (fun _ => []) (function_output call_id) =
      some (some (function_output call_id)) :=
  ⟨rfl, rfl⟩

/-- Reasoning before a call can be dropped. -/
theorem prompts_paired_when_reasoning_goes :
    prompts_paired (fun _ => []) 0
      [reasoning, function_call ['1'], function_output ['1']] [some overflow] := by
  have hpaired : paired [reasoning, function_call ['1'], function_output ['1']] := by
    intro i item c hi hout
    match i with
    | 0 =>
      cases hi
      cases hout
    | 1 =>
      cases hi
      cases hout
    | 2 =>
      cases hi
      cases hout
      exact ⟨1, function_call ['1'], by omega, rfl, List.mem_singleton.mpr rfl⟩
    | i + 3 => cases hi
  have hoverflow : ∀ e ∈ [overflow], is_context_overflow_error e = true := by decide +kernel
  have hsame : sanitize_items_for_compact (fun _ => [])
      [reasoning, function_call ['1'], function_output ['1']] =
      some [reasoning, function_call ['1'], function_output ['1']] := by
    simp only [sanitize_items_for_compact, sanitize_calls]
    rfl
  apply (prompts_paired_iff_drops_cut_nothing (fun _ => []) 0 hpaired hoverflow).mpr
  intro items hitems
  obtain rfl := Option.some.inj (hsame.symm.trans hitems)
  decide +kernel

/-- The inline loop drops a call and sends its output. -/
theorem inline_sends_an_output_without_its_call :
    ¬ ∀ (turn_input : List (ResponseItem Unit)) (errors : List CodexErr), paired turn_input →
      (∀ e ∈ errors, is_context_overflow_error e = true) →
      prompts_paired (fun _ => []) 0 turn_input (errors.map some) := by
  intro hall
  have hpaired : paired [function_call ['1'], function_output ['1']] := by
    intro i item c hi hout
    match i with
    | 0 =>
      cases hi
      cases hout
    | 1 =>
      cases hi
      cases hout
      exact ⟨0, function_call ['1'], by omega, rfl, List.mem_singleton.mpr rfl⟩
    | i + 2 => cases hi
  have hoverflow : ∀ e ∈ [overflow], is_context_overflow_error e = true := by decide +kernel
  have hsame : sanitize_items_for_compact (fun _ => [])
      [function_call ['1'], function_output ['1']] =
      some [function_call ['1'], function_output ['1']] := by
    simp only [sanitize_items_for_compact, sanitize_calls]
    rfl
  have hprompts := (hall _ _ hpaired hoverflow).2
  unfold run_compact_task_inner_inline_prompts at hprompts
  rw [hsame] at hprompts
  -- the prompt after the first overflow
  have hsent := hprompts [function_output ['1']] (by
    simp [retry_loop, on_overflow (hoverflow _ List.mem_cons_self), RetryState.start,
      MAX_COMPACT_CONTEXT_OVERFLOW_TRIMS])
  obtain ⟨j, _, hj, _⟩ := hsent 0 (function_output ['1']) ['1'] rfl rfl
  exact absurd hj (Nat.not_lt_zero j)

end Ecode.compact
