-- The input of a request (core/src/codex/streaming.rs): the synthetic outputs that
-- `try_run_turn` adds for calls without one, and the input that a retry starts from.
import Ecode.ResponseItems

namespace Ecode.turn

variable {β : Type}

/-! ## Synthetic outputs -/

/-- The id of an item that answers a tool call. -/
def output_call_id : ResponseItem β → Option Text
  | .FunctionCallOutput call_id _ => some call_id
  | .CustomToolCallOutput call_id _ _ => some call_id
  | _ => none

/-- The id of a tool call. -/
def pending_call_id : ResponseItem β → Option Text
  | .FunctionCall _ _ _ _ call_id => some call_id
  | .LocalShellCall _ call_id _ => call_id
  | .CustomToolCall _ _ call_id _ _ _ => some call_id
  | _ => none

/-- The id of a local shell call. -/
def shell_call_id : ResponseItem β → Option Text
  | .LocalShellCall _ call_id _ => call_id
  | _ => none

/-- The ids that `try_run_turn` takes as answered: a local shell call counts as its own answer. -/
def completed_call_id : ResponseItem β → Option Text
  | .FunctionCallOutput call_id _ => some call_id
  | .LocalShellCall _ call_id _ => call_id
  | .CustomToolCallOutput call_id _ _ => some call_id
  | _ => none

def completed_call_ids (input : List (ResponseItem β)) : List Text :=
  input.filterMap completed_call_id

def aborted (call_id : Text) : ResponseItem β :=
  .CustomToolCallOutput call_id none (.from_text "aborted".toList)

def missing_calls (input : List (ResponseItem β)) : List (ResponseItem β) :=
  ((input.filterMap pending_call_id).filter
    (fun call_id => call_id ∉ completed_call_ids input)).map aborted

/-- The input that `try_run_turn` sends. -/
def sent_input (input : List (ResponseItem β)) : List (ResponseItem β) :=
  if (missing_calls input).isEmpty then input else missing_calls input ++ input

/-- Some output of the list has the id. -/
def Answered (input : List (ResponseItem β)) (call_id : Text) : Prop :=
  ∃ item ∈ input, output_call_id item = some call_id

/-- Every local shell call of the list has an output in it. -/
def ShellAnswered (input : List (ResponseItem β)) : Prop :=
  ∀ item ∈ input, ∀ call_id, shell_call_id item = some call_id → Answered input call_id

theorem sent_input_eq (input : List (ResponseItem β)) :
    sent_input input = missing_calls input ++ input := by
  unfold sent_input
  by_cases h : (missing_calls input).isEmpty
  · rw [if_pos h, List.isEmpty_iff.mp h]
    rfl
  · rw [if_neg h]

/-- What is taken as answered is an output or a local shell call. -/
theorem mem_completed {input : List (ResponseItem β)} {call_id : Text} :
    call_id ∈ completed_call_ids input ↔
      Answered input call_id ∨ ∃ item ∈ input, shell_call_id item = some call_id := by
  unfold completed_call_ids Answered
  rw [List.mem_filterMap]
  constructor
  · rintro ⟨item, hitem, hid⟩
    cases item with
    | FunctionCallOutput c output => exact .inl ⟨_, hitem, hid⟩
    | CustomToolCallOutput c name output => exact .inl ⟨_, hitem, hid⟩
    | LocalShellCall id c body => exact .inr ⟨_, hitem, hid⟩
    | _ => simp [completed_call_id] at hid
  · rintro (⟨item, hitem, hid⟩ | ⟨item, hitem, hid⟩)
    · refine ⟨item, hitem, ?_⟩
      cases item <;> simp_all [output_call_id, completed_call_id]
    · refine ⟨item, hitem, ?_⟩
      cases item <;> simp_all [shell_call_id, completed_call_id]

theorem mem_missing {input : List (ResponseItem β)} {item : ResponseItem β} :
    item ∈ missing_calls input ↔ ∃ call_id, item = aborted call_id ∧
      (∃ call ∈ input, pending_call_id call = some call_id) ∧
      call_id ∉ completed_call_ids input := by
  unfold missing_calls
  simp only [List.mem_map, List.mem_filter, List.mem_filterMap, decide_eq_true_eq]
  constructor
  · rintro ⟨c, ⟨hcall, hnot⟩, rfl⟩
    exact ⟨c, rfl, hcall, hnot⟩
  · rintro ⟨c, rfl, hcall, hnot⟩
    exact ⟨c, ⟨hcall, hnot⟩, rfl⟩

/-- An id is answered in the sent input if it was, or if it is a call that was not taken as
answered. -/
theorem answered_sent {input : List (ResponseItem β)} {call_id : Text} :
    Answered (sent_input input) call_id ↔ Answered input call_id ∨
      ((∃ call ∈ input, pending_call_id call = some call_id) ∧
        call_id ∉ completed_call_ids input) := by
  rw [sent_input_eq]
  unfold Answered
  simp only [List.mem_append]
  constructor
  · rintro ⟨item, hmissing | hinput, hid⟩
    · obtain ⟨c, rfl, hcall, hnot⟩ := mem_missing.mp hmissing
      obtain rfl : c = call_id := by simpa [aborted, output_call_id] using hid
      exact .inr ⟨hcall, hnot⟩
    · exact .inl ⟨item, hinput, hid⟩
  · rintro (⟨item, hinput, hid⟩ | ⟨hcall, hnot⟩)
    · exact ⟨item, .inr hinput, hid⟩
    · exact ⟨aborted call_id, .inl (mem_missing.mpr ⟨call_id, rfl, hcall, hnot⟩), rfl⟩

/-- Every call is answered in the sent input, and none twice, just if every local shell call was
answered before. -/
theorem every_call_answered_iff_shell_calls_were (input : List (ResponseItem β)) :
    ((∀ call ∈ input, ∀ call_id, pending_call_id call = some call_id →
        Answered (sent_input input) call_id) ∧
      ∀ item ∈ missing_calls input, ∀ call_id, output_call_id item = some call_id →
        ¬ Answered input call_id) ↔
    ShellAnswered input := by
  constructor
  · rintro ⟨hall, _⟩ item hitem c hid
    have hpending : pending_call_id item = some c := by
      cases item <;> simp_all [shell_call_id, pending_call_id]
    rcases answered_sent.mp (hall item hitem c hpending) with hanswered | ⟨_, hnot⟩
    · exact hanswered
    · exact absurd (mem_completed.mpr (.inr ⟨item, hitem, hid⟩)) hnot
  · intro hshell
    refine ⟨?_, ?_⟩
    · intro call hcall c hid
      rw [answered_sent]
      by_cases hdone : c ∈ completed_call_ids input
      · left
        rcases mem_completed.mp hdone with hanswered | ⟨item, hitem, hitem_id⟩
        · exact hanswered
        · exact hshell item hitem c hitem_id
      · exact .inr ⟨⟨call, hcall, hid⟩, hdone⟩
    · intro item hitem c hid hanswered
      obtain ⟨c', rfl, _, hnot⟩ := mem_missing.mp hitem
      obtain rfl : c' = c := by simpa [aborted, output_call_id] using hid
      exact hnot (mem_completed.mpr (.inl hanswered))

theorem interrupted_shell_call_is_sent_unanswered :
    ¬ ∀ input : List (ResponseItem Unit), ∀ call ∈ input, ∀ call_id,
      pending_call_id call = some call_id → Answered (sent_input input) call_id := by
  intro hall
  obtain ⟨item, hitem, hid⟩ := hall [.LocalShellCall none (some "c".toList) ()] _
    List.mem_cons_self "c".toList rfl
  have hsent : sent_input [ResponseItem.LocalShellCall none (some "c".toList) ()] =
      [.LocalShellCall none (some "c".toList) ()] := by
    rw [sent_input_eq]
    rfl
  rw [hsent, List.mem_singleton] at hitem
  subst hitem
  simp [output_call_id] at hid

/-! ## The input of a retry -/

/-- What is left of an attempt whose stream was dropped; `responses` as items. -/
structure TurnScratchpad (β : Type) where
  items : List (ResponseItem β)
  responses : List (ResponseItem β)
  partial_assistant_text : Text
  partial_reasoning_summary : Text

/-- The ids that a retry does not append a second time. -/
def retried_call_id : ResponseItem β → Option Text
  | .FunctionCall _ _ _ _ call_id => some call_id
  | .LocalShellCall _ call_id _ => call_id
  | _ => none

/-- One item of the dropped attempt: a call that was not seen yet is appended. -/
def append_unseen (acc : List Text × List (ResponseItem β)) (item : ResponseItem β) :
    List Text × List (ResponseItem β) :=
  match retried_call_id item with
  | none => acc
  | some c => if c ∈ acc.1 then acc else (c :: acc.1, acc.2 ++ [item])

/-- The last 800 characters. -/
def last_fragment (t : Text) : Text := t.drop (t.length - 800)

def retry_hint (sp : TurnScratchpad β) : List (ResponseItem β) :=
  if sp.partial_assistant_text = [] ∧ sp.partial_reasoning_summary = [] then []
  else
    let reasoning := if sp.partial_reasoning_summary = [] then [] else
      "Last reasoning summary fragment:\n".toList ++ last_fragment sp.partial_reasoning_summary ++
        "\n\n".toList
    let assistant := if sp.partial_assistant_text = [] then [] else
      "Last assistant text fragment:\n".toList ++ last_fragment sp.partial_assistant_text ++
        "\n".toList
    let hint := "[EPHEMERAL:RETRY_HINT]\nPrevious attempt aborted mid-stream. ".toList ++
      "Continue without repeating.\n".toList ++ reasoning ++ assistant
    [.Message none "user".toList [.InputText hint] none none]

def drain_scratchpad_into_attempt (attempt_input : List (ResponseItem β))
    (sp : TurnScratchpad β) : List (ResponseItem β) :=
  let seen_calls := attempt_input.filterMap retried_call_id
  (sp.items.foldl append_unseen (seen_calls, attempt_input)).2 ++ sp.responses ++ retry_hint sp

/-- What is appended are items of the dropped attempt. -/
theorem append_unseen_items (items : List (ResponseItem β))
    (acc : List Text × List (ResponseItem β)) :
    ∃ calls, (items.foldl append_unseen acc).2 = acc.2 ++ calls ∧ ∀ item ∈ calls, item ∈ items := by
  induction items generalizing acc with
  | nil => exact ⟨[], by simp, by simp⟩
  | cons item items ih =>
    obtain ⟨calls, heq, hmem⟩ := ih (append_unseen acc item)
    rw [List.foldl_cons, heq]
    unfold append_unseen
    rcases retried_call_id item with _ | c
    · exact ⟨calls, rfl, fun x hx => List.mem_cons_of_mem item (hmem x hx)⟩
    · by_cases hc : c ∈ acc.1
      · exact ⟨calls, by simp [hc], fun x hx => List.mem_cons_of_mem item (hmem x hx)⟩
      · refine ⟨item :: calls, by simp [hc], ?_⟩
        intro x hx
        rcases List.mem_cons.mp hx with rfl | hx
        · exact List.mem_cons_self
        · exact List.mem_cons_of_mem item (hmem x hx)

theorem retry_hint_calls_nothing (sp : TurnScratchpad β) :
    ∀ item ∈ retry_hint sp, shell_call_id item = none := by
  intro item hitem
  unfold retry_hint at hitem
  by_cases h : sp.partial_assistant_text = [] ∧ sp.partial_reasoning_summary = []
  · rw [if_pos h] at hitem
    cases hitem
  · rw [if_neg h] at hitem
    rw [List.mem_singleton.mp hitem]
    rfl

/-- A retry keeps the local shell calls answered if the dropped attempt answered its own. -/
theorem drain_shell_answered {attempt_input : List (ResponseItem β)} {sp : TurnScratchpad β}
    (hinput : ShellAnswered attempt_input)
    (hitems : ∀ item ∈ sp.items, ∀ c, shell_call_id item = some c → Answered sp.responses c)
    (hresponses : ∀ item ∈ sp.responses, shell_call_id item = none) :
    ShellAnswered (drain_scratchpad_into_attempt attempt_input sp) := by
  obtain ⟨calls, heq, hcalls⟩ := append_unseen_items sp.items
    (attempt_input.filterMap retried_call_id, attempt_input)
  unfold drain_scratchpad_into_attempt
  dsimp only
  rw [heq]
  intro item hitem c hid
  simp only [List.mem_append] at hitem
  rcases hitem with ((hold | hcall) | hresponse) | hhint
  · obtain ⟨out, hout, houtid⟩ := hinput item hold c hid
    exact ⟨out, by simp [hout], houtid⟩
  · obtain ⟨out, hout, houtid⟩ := hitems item (hcalls item hcall) c hid
    exact ⟨out, by simp [hout], houtid⟩
  · rw [hresponses item hresponse] at hid
    cases hid
  · rw [retry_hint_calls_nothing sp item hhint] at hid
    cases hid

/-- Over any number of retries. -/
theorem retries_shell_answered {input : List (ResponseItem β)} (attempts : List (TurnScratchpad β))
    (hinput : ShellAnswered input)
    (hattempts : ∀ sp ∈ attempts,
      (∀ item ∈ sp.items, ∀ c, shell_call_id item = some c → Answered sp.responses c) ∧
        ∀ item ∈ sp.responses, shell_call_id item = none) :
    ShellAnswered (attempts.foldl drain_scratchpad_into_attempt input) := by
  induction attempts generalizing input with
  | nil => exact hinput
  | cons sp attempts ih =>
    obtain ⟨hitems, hresponses⟩ := hattempts sp List.mem_cons_self
    exact ih (drain_shell_answered hinput hitems hresponses)
      (fun sp' hsp => hattempts sp' (List.mem_cons_of_mem sp hsp))

end Ecode.turn
