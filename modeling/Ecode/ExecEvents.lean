-- The begin and end events of commands (core/src/codex/exec.rs): the calls of
-- run_exec_with_events with their hooks, the drop guard, and the sweep of a sub id.
import Ecode.Text
import Ecode.Runs

open Ecode.runs

namespace Ecode.exec_events

/-! ## Events -/

/-- What a command gave. The duration is in milliseconds. -/
structure ExecToolCallOutput where
  exit_code : Int
  stdout : Text
  stderr : Text
  duration : Nat
  deriving DecidableEq, Repr

/-- What `process_exec_tool_call` returns. Another error has the message that is shown for it. -/
inductive ExecResult where
  | ok (output : ExecToolCallOutput)
  | timeout (output : ExecToolCallOutput)
  | error (message : Text)
  deriving DecidableEq, Repr

/-- The output that is reported. -/
def ExecResult.borrowed : ExecResult → ExecToolCallOutput
  | .ok output => output
  | .timeout output => output
  | .error message => { exit_code := -1, stdout := [], stderr := message, duration := 0 }

inductive EventMsg where
  | ExecCommandBegin (call_id : Text)
  | PatchApplyBegin (call_id : Text)
  | ExecCommandEnd (call_id stdout stderr : Text) (exit_code : Int) (duration : Nat)
  | PatchApplyEnd (call_id stdout stderr : Text) (success : Bool)
  | TurnDiff (unified_diff : Text)
  deriving DecidableEq, Repr

namespace EventMsg

def call_id : EventMsg → Option Text
  | ExecCommandBegin call_id => some call_id
  | PatchApplyBegin call_id => some call_id
  | ExecCommandEnd call_id _ _ _ _ => some call_id
  | PatchApplyEnd call_id _ _ _ => some call_id
  | TurnDiff _ => none

def is_end : EventMsg → Bool
  | ExecCommandEnd _ _ _ _ _ => true
  | PatchApplyEnd _ _ _ _ => true
  | _ => false

end EventMsg

def synthetic_exec_end_payload (cancelled : Bool) : Int × Text :=
  if cancelled then (130, "Command cancelled by user.".toList)
  else (130, "Command interrupted before completion.".toList)

/-- The end event of a command that did not give one itself. -/
def synthetic_end (call_id : Text) (cancelled : Bool) : EventMsg :=
  .ExecCommandEnd call_id [] (synthetic_exec_end_payload cancelled).2
    (synthetic_exec_end_payload cancelled).1 0

def MAX_STREAM_OUTPUT : Nat := 5 * 1024

/-! ## Calls -/

/-- How far a call of `run_exec_with_events_inner` has come. -/
inductive Phase where
  /-- The call is tracked, and its hooks before the command run. -/
  | before
  /-- The begin event is sent. -/
  | running
  /-- The end event is sent, and for a patch the turn diff may be. -/
  | ended (result : ExecResult) (diff_sent : Bool)
  /-- `mark_completed` is done; the sweep has these commands left to end. -/
  | completed (result : ExecResult) (to_emit : List Text)
  | returned (result : ExecResult)
  | dropped
  deriving DecidableEq, Repr

namespace Phase

/-- The call is not there any more. -/
def is_over : Phase → Bool
  | returned _ => true
  | dropped => true
  | _ => false

/-- The `completed` field of the drop guard. -/
def marked_completed : Phase → Bool
  | completed _ _ => true
  | returned _ => true
  | _ => false

/-- The command has not ended, or its end is not yet marked. -/
def in_progress : Phase → Bool
  | before => true
  | running => true
  | ended _ _ => true
  | _ => false

/-- The end event is sent, and its end is not yet marked. -/
def ending : Phase → Bool
  | ended _ _ => true
  | _ => false

theorem in_progress_iff (phase : Phase) :
    phase.in_progress = true ↔ phase.is_over = false ∧ phase.marked_completed = false := by
  cases phase <;> simp [in_progress, is_over, marked_completed]

end Phase

/-- A call: its context, its flags, and the hook command that runs inside it. -/
structure Call where
  sub_id : Text
  is_apply_patch : Bool
  enable_hooks : Bool
  /-- The call is a hook command inside another one. -/
  inside : Bool
  hook : Option Text
  phase : Phase
  cancel_flag : Bool
  end_emitted : Bool
  deriving DecidableEq, Repr

namespace Call

def new (sub_id : Text) (is_apply_patch enable_hooks inside : Bool) : Call where
  sub_id
  is_apply_patch
  enable_hooks
  inside
  hook := none
  phase := .before
  cancel_flag := false
  end_emitted := false

def begin_event (call : Call) (call_id : Text) : EventMsg :=
  if call.is_apply_patch then .PatchApplyBegin call_id else .ExecCommandBegin call_id

def end_event (call : Call) (call_id : Text) (result : ExecResult) : EventMsg :=
  let output := result.borrowed
  let stdout := output.stdout.take MAX_STREAM_OUTPUT
  let stderr := output.stderr.take MAX_STREAM_OUTPUT
  if call.is_apply_patch then .PatchApplyEnd call_id stdout stderr (output.exit_code == 0)
  else .ExecCommandEnd call_id stdout stderr output.exit_code output.duration

@[simp] theorem begin_event_call_id (call : Call) (call_id : Text) :
    (call.begin_event call_id).call_id = some call_id := by
  unfold begin_event
  split <;> rfl

@[simp] theorem end_event_call_id (call : Call) (call_id : Text) (result : ExecResult) :
    (call.end_event call_id result).call_id = some call_id := by
  unfold end_event
  dsimp only
  split <;> rfl

theorem end_event_is_end (call : Call) (call_id : Text) (result : ExecResult) :
    (call.end_event call_id result).is_end = true := by
  unfold end_event
  dsimp only
  split <;> rfl

theorem begin_event_not_end (call : Call) (call_id : Text) :
    (call.begin_event call_id).is_end = false := by
  unfold begin_event
  split <;> rfl

end Call

/-! ## The session -/

/-- The calls that were made, the ids that are tracked, and the events that were sent. -/
structure Session where
  calls : Text → Option Call
  running_execs : Finset Text
  tx_event : List EventMsg

inductive Action where
  /-- A call begins: a command of a turn, or one of a hook of the session. -/
  | run_exec_with_events (call_id sub_id : Text) (is_apply_patch enable_hooks : Bool)
  /-- A hook command begins inside a call, before its command or after it. -/
  | run_hook_command (call_id hook_id : Text)
  | on_exec_command_begin (call_id : Text)
  | on_exec_command_end (call_id : Text) (result : ExecResult)
  | send_turn_diff (call_id unified_diff : Text)
  /-- The end is marked and the sub id swept, in some order of its commands. -/
  | mark_completed (call_id : Text) (to_emit : List Text)
  /-- The sweep ends its next command. -/
  | emit_cancelled (call_id : Text)
  | finish (call_id : Text)
  /-- The call is dropped, with the hook command inside it. -/
  | abort (call_id : Text)
  | mark_all_running_execs_as_cancelled
  deriving DecidableEq, Repr

namespace Session

def start : Session := ⟨fun _ => none, ∅, []⟩

def put (s : Session) (call_id : Text) (call : Call) : Session :=
  { s with calls := Function.update s.calls call_id (some call) }

theorem put_calls_self (s : Session) (call_id : Text) (call : Call) :
    (s.put call_id call).calls call_id = some call :=
  Function.update_self (β := fun _ => Option Call) call_id (some call) s.calls

theorem put_calls_of_ne (s : Session) {call_id other : Text} (call : Call)
    (h : other ≠ call_id) : (s.put call_id call).calls other = s.calls other :=
  Function.update_of_ne (β := fun _ => Option Call) h (some call) s.calls

def send (s : Session) (msg : EventMsg) : Session := { s with tx_event := s.tx_event ++ [msg] }

def track_running_exec (s : Session) (call_id : Text) (call : Call) : Session :=
  { s.put call_id call with running_execs := insert call_id s.running_execs }

def unregister_running_exec (s : Session) (call_id : Text) : Session :=
  { s with running_execs := s.running_execs.erase call_id }

/-- The hook command inside the call is over. -/
def hook_over (s : Session) (call : Call) : Bool :=
  (call.hook.bind s.calls).all (·.phase.is_over)

/-- The sweep of a sub id takes this command. -/
def swept (s : Session) (sub_id call_id : Text) : Bool :=
  (s.calls call_id).any fun call => call.sub_id == sub_id && !call.end_emitted

/-- `drop` of the guard of a call. -/
def drop_guard (s : Session) (call_id : Text) : Session :=
  match s.calls call_id with
  | none => s
  | some call =>
    if call.phase.is_over then s
    else if call.phase.marked_completed || call.end_emitted then
      (s.unregister_running_exec call_id).put call_id { call with phase := .dropped }
    else
      ((s.unregister_running_exec call_id).put call_id
        { call with phase := .dropped, end_emitted := true }).send
          (synthetic_end call_id call.cancel_flag)

/-- The hook command inside a call is dropped before the guard of the call. -/
def drop_hook (s : Session) (call : Call) : Session :=
  match call.hook with
  | some hook_id => s.drop_guard hook_id
  | none => s

/-- The sweep ends one command. -/
def end_swept (s : Session) (call_id : Text) : Session :=
  match s.calls call_id with
  | none => s
  | some call =>
    let cancelled := s.put call_id { call with cancel_flag := true, end_emitted := true }
    if call.end_emitted then cancelled else cancelled.send (synthetic_end call_id true)

/-- `mark_completed`, and the part of `finalize_cancelled_execs` under the lock. -/
def complete (s : Session) (call_id : Text) (call : Call) (result : ExecResult)
    (to_emit : List Text) : Session :=
  { (s.put call_id { call with phase := .completed result to_emit, end_emitted := true }) with
    running_execs := s.running_execs.erase call_id \ to_emit.toFinset }

def step (s : Session) : Action → Option Session
  | .run_exec_with_events call_id sub_id is_apply_patch enable_hooks =>
    match s.calls call_id with
    | none => some (s.track_running_exec call_id (.new sub_id is_apply_patch enable_hooks false))
    | some _ => none
  | .run_hook_command call_id hook_id => do
    let call ← s.calls call_id
    match s.calls hook_id, call.phase with
    | none, .before | none, .completed _ [] =>
      if call.enable_hooks && s.hook_over call then
        some ((s.put call_id { call with hook := some hook_id }).track_running_exec hook_id
          (.new call.sub_id false false true))
      else none
    | _, _ => none
  | .on_exec_command_begin call_id => do
    let call ← s.calls call_id
    match call.phase with
    | .before =>
      if s.hook_over call then
        some ((s.put call_id { call with phase := .running }).send (call.begin_event call_id))
      else none
    | _ => none
  | .on_exec_command_end call_id result => do
    let call ← s.calls call_id
    match call.phase with
    | .running =>
      some ((s.put call_id { call with phase := .ended result false }).send
        (call.end_event call_id result))
    | _ => none
  | .send_turn_diff call_id unified_diff => do
    let call ← s.calls call_id
    match call.phase with
    | .ended result false =>
      if call.is_apply_patch then
        some ((s.put call_id { call with phase := .ended result true }).send
          (.TurnDiff unified_diff))
      else none
    | _ => none
  | .mark_completed call_id to_emit => do
    let call ← s.calls call_id
    match call.phase with
    | .ended result _ =>
      if to_emit.Nodup ∧ to_emit.toFinset =
          (s.running_execs.erase call_id).filter (fun other => s.swept call.sub_id other) then
        some (s.complete call_id call result to_emit)
      else none
    | _ => none
  | .emit_cancelled call_id => do
    let call ← s.calls call_id
    match call.phase with
    | .completed result (other :: rest) =>
      some ((s.put call_id { call with phase := .completed result rest }).end_swept other)
    | _ => none
  | .finish call_id => do
    let call ← s.calls call_id
    match call.phase with
    | .completed result [] =>
      if s.hook_over call then some (s.put call_id { call with phase := .returned result })
      else none
    | _ => none
  | .abort call_id => do
    let call ← s.calls call_id
    if call.inside || call.phase.is_over then none
    else some ((s.drop_hook call).drop_guard call_id)
  | .mark_all_running_execs_as_cancelled =>
    some { s with
      calls := fun call_id => (s.calls call_id).map fun call =>
        { call with cancel_flag := call.cancel_flag || decide (call_id ∈ s.running_execs) } }

/-- The begin and end events of a call, in order. -/
def about (s : Session) (call_id : Text) : List EventMsg :=
  s.tx_event.filter (fun msg => msg.call_id = some call_id)

/-- Every command ends once. -/
structure EndsOnce (s : Session) : Prop where
  /-- A command that began is in progress, or exactly one end event follows its begin event. -/
  ended : ∀ call_id call, s.calls call_id = some call →
    call.begin_event call_id ∈ s.about call_id →
    (s.about call_id = [call.begin_event call_id] ∧ call.phase.in_progress) ∨
    ∃ msg, msg.is_end ∧ s.about call_id = [call.begin_event call_id, msg]
  /-- A call that has returned has reported what its command gave. -/
  result : ∀ call_id call result, s.calls call_id = some call →
    call.phase = .returned result →
    s.about call_id = [call.begin_event call_id, call.end_event call_id result]
  /-- The commands in progress are those that are tracked. -/
  registry : ∀ call_id, call_id ∈ s.running_execs ↔
    ∃ call, s.calls call_id = some call ∧ call.phase.in_progress

/-- When a call is completed, the sweep takes no other command; and no call is dropped between
its end event and the mark of its end. -/
def Undisturbed (s : Session) : Action → Prop
  | .mark_completed call_id _ => ∀ call ∈ s.calls call_id, ∀ other ∈ s.running_execs,
    other ≠ call_id → s.swept call.sub_id other = false
  | .abort call_id => ∀ call ∈ s.calls call_id, call.phase.ending = false ∧
    ∀ hook ∈ call.hook.bind s.calls, hook.phase.ending = false
  | _ => True

/-! ## What a step keeps -/

/-- What has been said of a call, by how far it has come. -/
def Shape (call_id : Text) (call : Call) (msgs : List EventMsg) : Prop :=
  match call.phase with
  | .before => msgs = []
  | .running => msgs = [call.begin_event call_id]
  | .ended result _ => msgs = [call.begin_event call_id, call.end_event call_id result]
  | .completed result to_emit =>
    msgs = [call.begin_event call_id, call.end_event call_id result] ∧ to_emit = []
  | .returned result => msgs = [call.begin_event call_id, call.end_event call_id result]
  | .dropped => call.begin_event call_id ∈ msgs →
    ∃ msg, msg.is_end ∧ msgs = [call.begin_event call_id, msg]

structure Told (call_id : Text) (call : Call) (msgs : List EventMsg) : Prop where
  /-- The flag says that the end is emitted from its mark on. -/
  flag : call.end_emitted = !call.phase.in_progress
  shape : Shape call_id call msgs

structure Inv (s : Session) : Prop where
  registry : ∀ call_id, call_id ∈ s.running_execs ↔
    ∃ call, s.calls call_id = some call ∧ call.phase.in_progress
  silent : ∀ call_id, s.calls call_id = none → s.about call_id = []
  told : ∀ call_id call, s.calls call_id = some call → Told call_id call (s.about call_id)

theorem start_inv : Inv start where
  registry := by simp [start]
  silent := fun _ _ => rfl
  told := by simp [start]

theorem Inv.ends_once {s : Session} (h : Inv s) : EndsOnce s where
  ended := by
    intro call_id call hcall hbegin
    obtain ⟨-, hshape⟩ := h.told call_id call hcall
    unfold Shape at hshape
    split at hshape
    · rw [hshape] at hbegin
      cases hbegin
    · next hphase => exact .inl ⟨hshape, by rw [hphase]; rfl⟩
    · exact .inr ⟨_, call.end_event_is_end _ _, hshape⟩
    · exact .inr ⟨_, call.end_event_is_end _ _, hshape.1⟩
    · exact .inr ⟨_, call.end_event_is_end _ _, hshape⟩
    · exact .inr (hshape hbegin)
  result := by
    intro call_id call result hcall hphase
    have hshape := (h.told call_id call hcall).shape
    simpa only [Shape, hphase] using hshape
  registry := h.registry

/-- A step that changes one call, and sends events of it only. -/
theorem Inv.change {s t : Session} (h : Inv s) {call_id : Text} {call : Call}
    (msgs : List EventMsg) (hcalls : t.calls = Function.update s.calls call_id (some call))
    (hevents : t.tx_event = s.tx_event ++ msgs)
    (habout : ∀ msg ∈ msgs, ∀ other, other ≠ call_id → msg.call_id ≠ some other)
    (hregistry : ∀ other, other ∈ t.running_execs ↔
      if other = call_id then call.phase.in_progress = true else other ∈ s.running_execs)
    (htold : Told call_id call
      (s.about call_id ++ msgs.filter (fun msg => msg.call_id = some call_id))) : Inv t := by
  have hself : t.about call_id =
      s.about call_id ++ msgs.filter (fun msg => msg.call_id = some call_id) := by
    simp only [about, hevents, List.filter_append]
  have hother : ∀ other, other ≠ call_id → t.about other = s.about other := by
    intro other hne
    have hnone : msgs.filter (fun msg => msg.call_id = some other) = [] := by
      rw [List.filter_eq_nil_iff]
      intro msg hmsg
      simpa using habout msg hmsg other hne
    simp only [about, hevents, List.filter_append, hnone, List.append_nil]
  refine ⟨fun other => ?_, fun other hnone => ?_, fun other call' hcall' => ?_⟩
  · rw [hregistry other, hcalls]
    by_cases hne : other = call_id
    · subst hne
      simp
    · rw [if_neg hne, Function.update_of_ne hne, h.registry other]
  · by_cases hne : other = call_id
    · subst hne
      rw [hcalls, Function.update_self] at hnone
      cases hnone
    · rw [hcalls, Function.update_of_ne hne] at hnone
      rw [hother other hne]
      exact h.silent other hnone
  · by_cases hne : other = call_id
    · subst hne
      rw [hcalls, Function.update_self] at hcall'
      obtain rfl := Option.some.inj hcall'
      rw [hself]
      exact htold
    · rw [hcalls, Function.update_of_ne hne] at hcall'
      rw [hother other hne]
      exact h.told other call' hcall'

/-- A call in progress is tracked. -/
theorem Inv.tracked {s : Session} (h : Inv s) {call_id : Text} {call : Call}
    (hcall : s.calls call_id = some call) :
    call_id ∈ s.running_execs ↔ call.phase.in_progress = true := by
  rw [h.registry call_id, hcall]
  simp

/-- A step that changes a call, and neither its progress nor what is tracked. -/
theorem Inv.put {s : Session} (h : Inv s) {call_id : Text} {call call' : Call}
    (hcall : s.calls call_id = some call)
    (hphase : call'.phase.in_progress = call.phase.in_progress)
    (htold : Told call_id call' (s.about call_id)) : Inv (s.put call_id call') := by
  refine h.change [] rfl (List.append_nil _).symm (by simp) ?_ (by simpa using htold)
  intro other
  by_cases hne : other = call_id
  · subst hne
    rw [if_pos rfl, hphase]
    exact h.tracked hcall
  · rw [if_neg hne]
    exact Iff.rfl

/-- A step that changes a call likewise, and sends an event. -/
theorem Inv.put_send {s : Session} (h : Inv s) {call_id : Text} {call call' : Call}
    (hcall : s.calls call_id = some call)
    (hphase : call'.phase.in_progress = call.phase.in_progress)
    {msg : EventMsg} (hmsg : msg.call_id = some call_id)
    (htold : Told call_id call' (s.about call_id ++ [msg])) :
    Inv ((s.put call_id call').send msg) := by
  refine h.change [msg] rfl rfl ?_ ?_ (by simpa [hmsg] using htold)
  · intro m hm other hne
    obtain rfl := List.mem_singleton.mp hm
    rw [hmsg]
    simpa using Ne.symm hne
  · intro other
    by_cases hne : other = call_id
    · subst hne
      rw [if_pos rfl, hphase]
      exact h.tracked hcall
    · rw [if_neg hne]
      exact Iff.rfl

/-- A new call is tracked, and nothing is said of it. -/
theorem Inv.track {s : Session} (h : Inv s) {call_id : Text} (hnone : s.calls call_id = none)
    (sub_id : Text) (is_apply_patch enable_hooks inside : Bool) :
    Inv (s.track_running_exec call_id (.new sub_id is_apply_patch enable_hooks inside)) := by
  refine h.change [] rfl (List.append_nil _).symm (by simp) ?_ ?_
  · intro other
    simp only [track_running_exec, Finset.mem_insert]
    by_cases hne : other = call_id
    · simp [hne, Call.new, Phase.in_progress]
    · rw [if_neg hne, or_iff_right hne]
  · exact ⟨rfl, by simp [Shape, Call.new, h.silent call_id hnone]⟩

/-- A call whose end is marked can be dropped. -/
theorem Told.drop_marked {call_id : Text} {call : Call} {msgs : List EventMsg}
    (h : Told call_id call msgs) (hmark : call.phase.marked_completed = true) :
    Told call_id { call with phase := .dropped } msgs := by
  obtain ⟨hflag, hshape⟩ := h
  unfold Shape at hshape
  split at hshape
  · next hphase => simp [hphase, Phase.marked_completed] at hmark
  · next hphase => simp [hphase, Phase.marked_completed] at hmark
  · next hphase => simp [hphase, Phase.marked_completed] at hmark
  · next hphase =>
    refine ⟨by simp [hflag, hphase, Phase.in_progress], fun _ => ?_⟩
    exact ⟨_, call.end_event_is_end _ _, hshape.1⟩
  · next hphase =>
    refine ⟨by simp [hflag, hphase, Phase.in_progress], fun _ => ?_⟩
    exact ⟨_, call.end_event_is_end _ _, hshape⟩
  · next hphase => simp [hphase, Phase.marked_completed] at hmark

/-- A call that is dropped in progress gets the end event of the guard. -/
theorem Told.drop_in_progress {call_id : Text} {call : Call} {msgs : List EventMsg}
    (h : Told call_id call msgs) (hprogress : call.phase.in_progress = true)
    (hending : call.phase.ending = false) (cancelled : Bool) :
    Told call_id { call with phase := .dropped, end_emitted := true }
      (msgs ++ [synthetic_end call_id cancelled]) := by
  refine ⟨rfl, ?_⟩
  obtain ⟨-, hshape⟩ := h
  unfold Shape at hshape
  split at hshape
  · -- it had not begun
    intro hbegin
    obtain rfl := hshape
    have hnot := call.begin_event_not_end call_id
    have hsame : call.begin_event call_id = synthetic_end call_id cancelled :=
      List.mem_singleton.mp hbegin
    rw [hsame] at hnot
    cases hnot
  · obtain rfl := hshape
    exact fun _ => ⟨_, rfl, rfl⟩
  · next hphase => simp [hphase, Phase.ending] at hending
  · next hphase => simp [hphase, Phase.in_progress] at hprogress
  · next hphase => simp [hphase, Phase.in_progress] at hprogress
  · next hphase => simp [hphase, Phase.in_progress] at hprogress

/-- The guard of a call drops well, but between the end event and its mark. -/
theorem Inv.drop_guard {s : Session} (h : Inv s) {call_id : Text}
    (hending : ∀ call ∈ s.calls call_id, call.phase.ending = false) :
    Inv (s.drop_guard call_id) := by
  unfold Session.drop_guard
  rcases hcall : s.calls call_id with _ | call
  · exact h
  have htold := h.told call_id call hcall
  have hregistry : ∀ other, other ∈ s.running_execs.erase call_id ↔
      if other = call_id then false = true else other ∈ s.running_execs := by
    intro other
    by_cases hne : other = call_id
    · simp [hne]
    · simp [hne]
  dsimp only
  split_ifs with hover hmark
  · exact h
  · refine h.change [] rfl (List.append_nil _).symm (by simp) hregistry ?_
    rw [List.filter_nil, List.append_nil]
    apply htold.drop_marked
    by_contra hnot
    have hprogress := call.phase.in_progress_iff.mpr
      ⟨Bool.not_eq_true _ ▸ hover, Bool.not_eq_true _ ▸ hnot⟩
    simp [htold.flag, hprogress, hnot] at hmark
  · refine h.change [synthetic_end call_id call.cancel_flag] rfl rfl ?_ hregistry ?_
    · intro msg hmsg other hne
      obtain rfl := List.mem_singleton.mp hmsg
      simpa [synthetic_end, EventMsg.call_id] using Ne.symm hne
    · rw [Bool.or_eq_true, not_or, Bool.not_eq_true, Bool.not_eq_true] at hmark
      have hprogress := call.phase.in_progress_iff.mpr ⟨Bool.not_eq_true _ ▸ hover, hmark.1⟩
      have hdropped := htold.drop_in_progress hprogress (hending call hcall) call.cancel_flag
      simpa [synthetic_end, EventMsg.call_id] using hdropped

/-- What the guard does to the other calls: nothing. -/
theorem drop_guard_calls (s : Session) (call_id : Text) {other : Text} (hne : other ≠ call_id) :
    (s.drop_guard call_id).calls other = s.calls other := by
  unfold drop_guard
  split
  · rfl
  · split_ifs
    · rfl
    · exact put_calls_of_ne _ _ hne
    · exact put_calls_of_ne _ _ hne

/-- No guard leaves a call between its end event and its mark that was not there before. -/
theorem drop_guard_ending (s : Session) (hook_id call_id : Text)
    (h : ∀ call ∈ s.calls call_id, call.phase.ending = false) :
    ∀ call ∈ (s.drop_guard hook_id).calls call_id, call.phase.ending = false := by
  by_cases hne : call_id = hook_id
  · subst hne
    unfold drop_guard
    split
    · exact h
    · split_ifs
      · exact h
      · intro call hcall
        obtain rfl := Option.some.inj ((put_calls_self _ _ _).symm.trans hcall)
        rfl
      · intro call hcall
        obtain rfl := Option.some.inj ((put_calls_self _ _ _).symm.trans hcall)
        rfl
  · rw [drop_guard_calls s hook_id hne]
    exact h

/-- A call runs the command of a hook that is new. -/
theorem Inv.run_hook {s : Session} (h : Inv s) {call_id hook_id : Text} {call : Call}
    (hcall : s.calls call_id = some call) (hnone : s.calls hook_id = none) :
    Inv ((s.put call_id { call with hook := some hook_id }).track_running_exec hook_id
      (.new call.sub_id false false true)) := by
  have htold := h.told call_id call hcall
  have hput : Inv (s.put call_id { call with hook := some hook_id }) :=
    h.put hcall rfl ⟨htold.flag, htold.shape⟩
  have hne : hook_id ≠ call_id := by
    rintro rfl
    rw [hcall] at hnone
    cases hnone
  apply hput.track
  rw [put_calls_of_ne _ _ hne]
  exact hnone

/-- After its end event a call sends the diff of the turn, which is about no call. -/
theorem Inv.turn_diff {s : Session} (h : Inv s) {call_id unified_diff : Text} {call : Call}
    {result : ExecResult} (hcall : s.calls call_id = some call)
    (hphase : call.phase = .ended result false) :
    Inv ((s.put call_id { call with phase := .ended result true }).send
      (.TurnDiff unified_diff)) := by
  have htold := h.told call_id call hcall
  have hshape := htold.shape
  simp only [Shape, hphase] at hshape
  refine h.change [.TurnDiff unified_diff] rfl rfl ?_ ?_
    ⟨htold.flag.trans (by rw [hphase]; rfl), ?_⟩
  · intro msg hmsg other _
    obtain rfl := List.mem_singleton.mp hmsg
    simp [EventMsg.call_id]
  · intro other
    by_cases hne : other = call_id
    · subst hne
      rw [if_pos rfl]
      exact (h.tracked hcall).trans (by rw [hphase]; rfl)
    · rw [if_neg hne]
      exact Iff.rfl
  · have hfilter : [EventMsg.TurnDiff unified_diff].filter
        (fun msg => msg.call_id = some call_id) = [] := rfl
    rw [hfilter, List.append_nil]
    exact hshape

/-- A call is marked as completed, and its sweep takes no other command. -/
theorem Inv.complete {s : Session} (h : Inv s) {call_id : Text} {call : Call}
    {result : ExecResult} {turn_diff : Bool} {to_emit : List Text}
    (hcall : s.calls call_id = some call) (hphase : call.phase = .ended result turn_diff)
    (hok : ∀ other ∈ s.running_execs, other ≠ call_id → s.swept call.sub_id other = false)
    (hsweep : to_emit.toFinset =
      (s.running_execs.erase call_id).filter (fun other => s.swept call.sub_id other)) :
    Inv (s.complete call_id call result to_emit) := by
  have hshape := (h.told call_id call hcall).shape
  simp only [Shape, hphase] at hshape
  have hnone : to_emit = [] := by
    rw [← List.toFinset_eq_empty_iff, hsweep, Finset.filter_eq_empty_iff]
    intro other hother
    obtain ⟨hne, hmem⟩ := Finset.mem_erase.mp hother
    simp [hok other hmem hne]
  subst hnone
  refine h.change [] rfl (List.append_nil _).symm (by simp) ?_ ⟨rfl, ?_⟩
  · intro other
    by_cases hne : other = call_id
    · simp [Session.complete, hne, Phase.in_progress]
    · simp [Session.complete, hne]
  · rw [List.filter_nil, List.append_nil]
    exact ⟨hshape, rfl⟩

/-- A call is dropped with its hook, and neither is between its end event and its mark. -/
theorem Inv.abort {s : Session} (h : Inv s) {call_id : Text} {call : Call}
    (hcall : s.calls call_id = some call) (hending : call.phase.ending = false)
    (hhook : ∀ hook ∈ call.hook.bind s.calls, hook.phase.ending = false) :
    Inv ((s.drop_hook call).drop_guard call_id) := by
  have hself : ∀ c ∈ s.calls call_id, c.phase.ending = false := by
    intro c hc
    obtain rfl := Option.some.inj (hcall.symm.trans hc)
    exact hending
  unfold drop_hook
  split
  · next hook_id hhook_id =>
    rw [hhook_id] at hhook
    exact (h.drop_guard hhook).drop_guard (drop_guard_ending s hook_id call_id hself)
  · exact h.drop_guard hself

/-- The begin event is the first of a call. -/
theorem Inv.begin_call {s : Session} (h : Inv s) {call_id : Text} {call : Call}
    (hcall : s.calls call_id = some call) (hphase : call.phase = .before) :
    Inv ((s.put call_id { call with phase := .running }).send (call.begin_event call_id)) := by
  have htold := h.told call_id call hcall
  have hnil : s.about call_id = [] := by simpa [Shape, hphase] using htold.shape
  refine h.put_send hcall (by rw [hphase]; rfl) (call.begin_event_call_id call_id) ?_
  rw [hnil]
  exact ⟨htold.flag.trans (by rw [hphase]; rfl), rfl⟩

/-- The end event follows the begin event. -/
theorem Inv.end_call {s : Session} (h : Inv s) {call_id : Text} {call : Call} (result : ExecResult)
    (hcall : s.calls call_id = some call) (hphase : call.phase = .running) :
    Inv ((s.put call_id { call with phase := .ended result false }).send
      (call.end_event call_id result)) := by
  have htold := h.told call_id call hcall
  have hbegun : s.about call_id = [call.begin_event call_id] := by
    simpa [Shape, hphase] using htold.shape
  refine h.put_send hcall (by rw [hphase]; rfl) (call.end_event_call_id call_id result) ?_
  rw [hbegun]
  exact ⟨htold.flag.trans (by rw [hphase]; rfl), rfl⟩

/-- A call that is over sends nothing more. -/
theorem Inv.return_call {s : Session} (h : Inv s) {call_id : Text} {call : Call}
    {result : ExecResult} (hcall : s.calls call_id = some call)
    (hphase : call.phase = .completed result []) :
    Inv (s.put call_id { call with phase := .returned result }) := by
  have htold := h.told call_id call hcall
  have hshape := htold.shape
  simp only [Shape, hphase] at hshape
  exact h.put hcall (by rw [hphase]; rfl) ⟨htold.flag.trans (by rw [hphase]; rfl), hshape.1⟩

/-- Setting the flags of calls says nothing of them. -/
theorem Inv.set_flags {s : Session} (h : Inv s) :
    Inv { s with
      calls := fun call_id => (s.calls call_id).map fun call =>
        { call with cancel_flag := call.cancel_flag || decide (call_id ∈ s.running_execs) } } := by
  refine ⟨fun call_id => ?_, fun call_id hnone => ?_, fun call_id call hcall => ?_⟩
  · refine (h.registry call_id).trans ?_
    simp
  · exact h.silent call_id (Option.map_eq_none_iff.mp hnone)
  · obtain ⟨before, hbefore, rfl⟩ := Option.map_eq_some_iff.mp hcall
    obtain ⟨hflag, hshape⟩ := h.told call_id before hbefore
    exact ⟨hflag, hshape⟩

/-- A step that may be made keeps the invariant. -/
theorem step_inv {s t : Session} {a : Action} (h : Inv s) (hok : Undisturbed s a)
    (hstep : step s a = some t) : Inv t := by
  cases a with
  | run_exec_with_events call_id sub_id is_apply_patch enable_hooks =>
    simp only [step] at hstep
    split at hstep
    · next hnone =>
      obtain rfl := Option.some.inj hstep
      exact h.track hnone sub_id is_apply_patch enable_hooks false
    · cases hstep
  | run_hook_command call_id hook_id =>
    obtain ⟨call, hcall, hstep⟩ := Option.bind_eq_some_iff.mp hstep
    split at hstep
    · next hnone _ =>
      split_ifs at hstep
      obtain rfl := Option.some.inj hstep
      exact h.run_hook hcall hnone
    · next hnone _ =>
      split_ifs at hstep
      obtain rfl := Option.some.inj hstep
      exact h.run_hook hcall hnone
    · cases hstep
  | on_exec_command_begin call_id =>
    obtain ⟨call, hcall, hstep⟩ := Option.bind_eq_some_iff.mp hstep
    split at hstep
    · next hphase =>
      split_ifs at hstep
      obtain rfl := Option.some.inj hstep
      exact h.begin_call hcall hphase
    · cases hstep
  | on_exec_command_end call_id result =>
    obtain ⟨call, hcall, hstep⟩ := Option.bind_eq_some_iff.mp hstep
    split at hstep
    · next hphase =>
      obtain rfl := Option.some.inj hstep
      exact h.end_call result hcall hphase
    · cases hstep
  | send_turn_diff call_id unified_diff =>
    obtain ⟨call, hcall, hstep⟩ := Option.bind_eq_some_iff.mp hstep
    split at hstep
    · next hphase =>
      split_ifs at hstep
      obtain rfl := Option.some.inj hstep
      exact h.turn_diff hcall hphase
    · cases hstep
  | mark_completed call_id to_emit =>
    obtain ⟨call, hcall, hstep⟩ := Option.bind_eq_some_iff.mp hstep
    split at hstep
    · next hphase =>
      split_ifs at hstep with hsweep
      obtain rfl := Option.some.inj hstep
      exact h.complete hcall hphase (hok call hcall) hsweep.2
    · cases hstep
  | emit_cancelled call_id =>
    obtain ⟨call, hcall, hstep⟩ := Option.bind_eq_some_iff.mp hstep
    have hshape := (h.told call_id call hcall).shape
    split at hstep
    · next hphase => simp [Shape, hphase] at hshape
    · cases hstep
  | finish call_id =>
    obtain ⟨call, hcall, hstep⟩ := Option.bind_eq_some_iff.mp hstep
    split at hstep
    · next hphase =>
      split_ifs at hstep
      obtain rfl := Option.some.inj hstep
      exact h.return_call hcall hphase
    · cases hstep
  | abort call_id =>
    obtain ⟨call, hcall, hstep⟩ := Option.bind_eq_some_iff.mp hstep
    split_ifs at hstep
    obtain rfl := Option.some.inj hstep
    obtain ⟨hending, hhook⟩ := hok call hcall
    exact h.abort hcall hending hhook
  | mark_all_running_execs_as_cancelled =>
    obtain rfl := Option.some.inj hstep
    exact h.set_flags

/-- For every order of the steps of calls, hooks, sweeps and aborts: while no sweep takes a command
of another call, and no call is dropped between its end event and the mark of its end, every
command ends once, with its own result when its call returns, and the commands in progress are
those that are tracked. -/
theorem commands_end_once_when_undisturbed {s : Session} (h : Reached step start Undisturbed s) :
    EndsOnce s := by
  apply Inv.ends_once
  exact h.invariant start_inv fun _ _ _ hs hok ht => step_inv hs hok ht

instance (s : Session) : (a : Action) → Decidable (Undisturbed s a)
  | .mark_completed call_id _ =>
    inferInstanceAs (Decidable (∀ call ∈ s.calls call_id, ∀ other ∈ s.running_execs,
      other ≠ call_id → s.swept call.sub_id other = false))
  | .abort call_id =>
    inferInstanceAs (Decidable (∀ call ∈ s.calls call_id, call.phase.ending = false ∧
      ∀ hook ∈ call.hook.bind s.calls, hook.phase.ending = false))
  | .run_exec_with_events .. | .run_hook_command .. | .on_exec_command_begin _
  | .on_exec_command_end .. | .send_turn_diff .. | .emit_cancelled _ | .finish _
  | .mark_all_running_execs_as_cancelled => isTrue trivial

/-! ## Runs of two commands -/

def first : Text := "call_1".toList

def second : Text := "call_2".toList

def done : ExecResult := .ok ⟨0, "done".toList, [], 7⟩

/-- A command with a hook after it, and one that is aborted. -/
def one_after_the_other : List Action :=
  [.run_exec_with_events first "sub".toList false true, .on_exec_command_begin first,
    .on_exec_command_end first done, .mark_completed first [],
    .run_hook_command first "hook".toList, .on_exec_command_begin "hook".toList,
    .on_exec_command_end "hook".toList done, .mark_completed "hook".toList [],
    .finish "hook".toList, .finish first,
    .run_exec_with_events second "sub".toList false true, .on_exec_command_begin second,
    .abort second]

theorem one_after_the_other_end_once :
    ∃ s, Reached step start Undisturbed s ∧
      (s.about first = [.ExecCommandBegin first, .ExecCommandEnd first "done".toList [] 0 7] ∧
        s.about second = [.ExecCommandBegin second, synthetic_end second false]) ∧
      EndsOnce s := by
  have hrun : (one_after_the_other.foldlM
      (fun s a => if Undisturbed s a then step s a else none) start).map
      (fun s => (s.about first, s.about second)) =
        some ([.ExecCommandBegin first, .ExecCommandEnd first "done".toList [] 0 7],
          [.ExecCommandBegin second, synthetic_end second false]) := by
    decide +kernel
  obtain ⟨s, hreached, hview⟩ := Reached.of_run hrun
  exact ⟨s, hreached, Prod.ext_iff.mp hview, commands_end_once_when_undisturbed hreached⟩

/-- Two commands of one turn: the end of the first sweeps the second, which goes on. -/
def side_by_side : List Action :=
  [.run_exec_with_events first "sub".toList false true, .on_exec_command_begin first,
    .run_exec_with_events second "sub".toList false true, .on_exec_command_begin second,
    .on_exec_command_end first done, .mark_completed first [second], .emit_cancelled first,
    .on_exec_command_end second done, .mark_completed second [], .finish second]

/-- The hook before a command sweeps the command, which has not begun. -/
def hook_before : List Action :=
  [.run_exec_with_events first "sub".toList false true, .run_hook_command first second,
    .on_exec_command_begin second, .on_exec_command_end second done,
    .mark_completed second [first], .emit_cancelled second, .finish second,
    .on_exec_command_begin first, .on_exec_command_end first done, .mark_completed first [],
    .finish first]

/-- The events of a call, and how far it has come. -/
def told (s : Session) (call_id : Text) : List EventMsg × Option Phase :=
  (s.about call_id, (s.calls call_id).map (·.phase))

/-- A call that has returned with three events has not ended once. -/
theorem not_ends_once {s : Session} {call_id : Text} {a b c : EventMsg} {result : ExecResult}
    (h : s.told call_id = ([a, b, c], some (.returned result))) : ¬ EndsOnce s := by
  intro hends
  obtain ⟨habout, hphase⟩ := Prod.ext_iff.mp h
  obtain ⟨call, hcall, hreturned⟩ := Option.map_eq_some_iff.mp hphase
  have htwo := hends.result call_id call result hcall hreturned
  rw [show s.about call_id = [a, b, c] from habout] at htwo
  simpa using congrArg List.length htwo

/-- The command that is swept has two end events, one of them synthetic; with a hook before the
command, the first one comes before the begin event. -/
theorem swept_command_ends_twice :
    (∃ s, side_by_side.foldlM step start = some s ∧
      s.told second = ([.ExecCommandBegin second, synthetic_end second true,
        .ExecCommandEnd second "done".toList [] 0 7], some (.returned done)) ∧ ¬ EndsOnce s) ∧
    ∃ s, hook_before.foldlM step start = some s ∧
      s.told first = ([synthetic_end first true, .ExecCommandBegin first,
        .ExecCommandEnd first "done".toList [] 0 7], some (.returned done)) ∧ ¬ EndsOnce s := by
  have hside : (side_by_side.foldlM step start).map (fun s => s.told second) =
      some ([.ExecCommandBegin second, synthetic_end second true,
        .ExecCommandEnd second "done".toList [] 0 7], some (.returned done)) := by decide +kernel
  have hhook : (hook_before.foldlM step start).map (fun s => s.told first) =
      some ([synthetic_end first true, .ExecCommandBegin first,
        .ExecCommandEnd first "done".toList [] 0 7], some (.returned done)) := by decide +kernel
  obtain ⟨s, hs, hsecond⟩ := Option.map_eq_some_iff.mp hside
  obtain ⟨t, ht, hfirst⟩ := Option.map_eq_some_iff.mp hhook
  exact ⟨⟨s, hs, hsecond, not_ends_once hsecond⟩, ⟨t, ht, hfirst, not_ends_once hfirst⟩⟩

end Session

end Ecode.exec_events
