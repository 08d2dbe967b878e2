-- The project hooks of a session (core/src/codex/exec.rs): the runs of hooks that share the hook
-- guard, and what their results say on a prompt and on the end of a turn.
import Ecode.Runs
import Ecode.Text

namespace Ecode.project_hooks

open runs

/-! ## The hooks -/

inductive ProjectHookEvent where
  | SessionStart
  | SessionEnd
  | UserPromptSubmit
  | ToolBefore
  | ToolAfter
  | FileBeforeWrite
  | FileAfterWrite
  | Stop
  deriving DecidableEq

structure ProjectHook where
  name : Option Text
  command : List Text
  deriving DecidableEq

/-- The hooks of each event in the order of the configuration. -/
structure ProjectHooks where
  hooks : ProjectHookEvent → List ProjectHook

namespace ProjectHooks

def is_empty (project_hooks : ProjectHooks) : Bool :=
  [.SessionStart, .SessionEnd, .UserPromptSubmit, .ToolBefore, .ToolAfter, .FileBeforeWrite,
    .FileAfterWrite, .Stop].all fun event => (project_hooks.hooks event).isEmpty

def hooks_for (project_hooks : ProjectHooks) (event : ProjectHookEvent) : List ProjectHook :=
  project_hooks.hooks event

end ProjectHooks

/-- What a command gives: its output, or the message of its error. -/
structure ExecToolCallOutput where
  exit_code : Int
  stdout : Text
  stderr : Text
  deriving DecidableEq

abbrev Exec := Except Text ExecToolCallOutput

structure ProjectHookCommandResult where
  stdout : Text
  stderr : Text
  exit_code : Option Int
  deriving DecidableEq

/-- The result of a hook whose command gave `output`. -/
def run_hook_command (hook : ProjectHook) (output : Exec) : ProjectHookCommandResult :=
  match output with
  | .ok output =>
    { stdout := output.stdout, stderr := output.stderr, exit_code := some output.exit_code }
  | .error err =>
    let hook_label := hook.name.getD (hook.command.head?.getD "hook".toList)
    { stdout := []
      stderr := "Hook `".toList ++ hook_label ++ "` failed: ".toList ++ err
      exit_code := none }

/-! ## What the results say -/

def trimmed_non_empty (text : Text) : Option Text :=
  let trimmed := text.trim
  if trimmed = [] then none else some trimmed

def join_text_chunks (chunks : List Text) : Option Text :=
  if chunks = [] then none else some (Text.join "\n\n".toList chunks)

structure UserPromptSubmitHookOutcome where
  blocked : Bool
  block_reason : Option Text
  additional_contexts : List Text

structure StopHookOutcome where
  blocked : Bool
  continuation_prompt : Option Text

/-- What `run_user_prompt_submit_hooks` makes of the results. -/
def run_user_prompt_submit_hooks (results : List ProjectHookCommandResult) :
    UserPromptSubmitHookOutcome :=
  let additional_contexts := results.filterMap fun result => trimmed_non_empty result.stdout
  let block_reasons := (results.filter fun result => result.exit_code == some 2).filterMap
    fun result => trimmed_non_empty result.stderr
  let block_reason := join_text_chunks block_reasons
  { blocked := block_reason.isSome, block_reason, additional_contexts }

/-- What `run_stop_hooks` makes of the results. -/
def run_stop_hooks (results : List ProjectHookCommandResult) : StopHookOutcome :=
  let prompts := (results.filter fun result => result.exit_code == some 2).filterMap
    fun result => trimmed_non_empty result.stderr
  let continuation_prompt := join_text_chunks prompts
  { blocked := continuation_prompt.isSome, continuation_prompt }

/-- Whether a run of hooks for an event reports blocked: only two events can. -/
def reports_blocked (event : ProjectHookEvent) (results : List ProjectHookCommandResult) : Bool :=
  match event with
  | .UserPromptSubmit => (run_user_prompt_submit_hooks results).blocked
  | .Stop => (run_stop_hooks results).blocked
  | _ => false

/-! ## The runs of a session -/

/-- How far a run of hooks is. A task that is aborted drops its run. -/
inductive Phase where
  | running (left : List ProjectHook) (results : List ProjectHookCommandResult)
  | returned (results : List ProjectHookCommandResult)
  | dropped
  deriving DecidableEq

structure HookRun where
  event : ProjectHookEvent
  phase : Phase
  deriving DecidableEq

def HookRun.in_progress (run : HookRun) : Bool :=
  match run.phase with
  | .running _ _ => true
  | _ => false

structure Session where
  hook_guard : Bool
  runs : List HookRun
  deriving DecidableEq

namespace Session

def new : Session := { hook_guard := false, runs := [] }

end Session

/-- `HookGuard::try_acquire`: the flag after it, none when it was set. -/
def HookGuard.try_acquire (flag : Bool) : Option Bool := if flag then none else some true

/-- The flag after the guard is dropped. -/
def HookGuard.drop : Bool := false

inductive Action where
  /-- Hooks of an event are to be run. -/
  | call (event : ProjectHookEvent)
  /-- The command of the next hook of a run ends. -/
  | hook_ended (run : Nat)
  | ret (run : Nat)
  | abort (run : Nat)

section

variable (project_hooks : ProjectHooks) (exec : Nat → Nat → Exec)

/-- How `run_hooks_for_exec_event`, `run_session_hooks` and `run_project_hooks_for_payload` all
begin: the phase before the first await, and the flag. -/
def begin_hooks (event : ProjectHookEvent) (hook_guard : Bool) : Phase × Bool :=
  if project_hooks.is_empty then (.returned [], hook_guard)
  else
    let hooks := project_hooks.hooks_for event
    if hooks = [] then (.returned [], hook_guard)
    else
      match HookGuard.try_acquire hook_guard with
      | none => (.returned [], hook_guard)
      | some flag => (.running hooks [], flag)

/-- One step of a session, where `exec` is what the command of a hook gives in a run. Only a run
that is in progress steps on. -/
def step (s : Session) : Action → Option Session
  | .call event =>
    let (phase, hook_guard) := begin_hooks project_hooks event s.hook_guard
    some { hook_guard, runs := s.runs ++ [{ event, phase }] }
  | .hook_ended run =>
    match s.runs[run]? with
    | some ⟨event, .running (hook :: left) results⟩ =>
      let result := run_hook_command hook (exec run results.length)
      some { s with runs := s.runs.set run ⟨event, .running left (results ++ [result])⟩ }
    | _ => none
  | .ret run =>
    match s.runs[run]? with
    | some ⟨event, .running [] results⟩ =>
      some { hook_guard := HookGuard.drop, runs := s.runs.set run ⟨event, .returned results⟩ }
    | _ => none
  | .abort run =>
    match s.runs[run]? with
    | some ⟨event, .running _ _⟩ =>
      some { hook_guard := HookGuard.drop, runs := s.runs.set run ⟨event, .dropped⟩ }
    | _ => none

/-- The hook with number `i` of a run exits with code 2, and its stderr is as `Said` asks. -/
def ExitsTwo (Said : Text → Prop) (run i : Nat) : Prop :=
  ∃ output, exec run i = .ok output ∧ output.exit_code = 2 ∧ Said output.stderr

/-- No run for a prompt or a stop lets a hook pass that exits, or would exit, with code 2. -/
def NeverBypassed (s : Session) : Prop :=
  ∀ run event results, event = .UserPromptSubmit ∨ event = .Stop →
    s.runs[run]? = some ⟨event, .returned results⟩ →
    (∃ i < (project_hooks.hooks_for event).length, ExitsTwo exec (fun _ => True) run i) →
    reports_blocked event results = true

end

/-! ## The verdict -/

theorem join_text_chunks_isSome {chunks : List Text} :
    (join_text_chunks chunks).isSome = true ↔ chunks ≠ [] := by
  unfold join_text_chunks
  split <;> simp_all

/-- Of the results with code 2 those with some text on stderr make the reasons. -/
theorem reasons_ne_nil {results : List ProjectHookCommandResult} :
    ((results.filter fun result => result.exit_code == some 2).filterMap
      fun result => trimmed_non_empty result.stderr) ≠ [] ↔
    ∃ result ∈ results, result.exit_code = some 2 ∧ result.stderr.trim ≠ [] := by
  simp only [ne_eq, List.filterMap_eq_nil_iff, List.mem_filter, beq_iff_eq, not_forall]
  constructor
  · rintro ⟨result, ⟨hmem, hcode⟩, hsome⟩
    refine ⟨result, hmem, hcode, fun hempty => hsome ?_⟩
    simp [trimmed_non_empty, hempty]
  · rintro ⟨result, hmem, hcode, hsaid⟩
    refine ⟨result, ⟨hmem, hcode⟩, ?_⟩
    simp [trimmed_non_empty, hsaid]

theorem reports_blocked_iff {event : ProjectHookEvent} {results : List ProjectHookCommandResult}
    (hevent : event = .UserPromptSubmit ∨ event = .Stop) :
    reports_blocked event results = true ↔
      ∃ result ∈ results, result.exit_code = some 2 ∧ result.stderr.trim ≠ [] := by
  rw [← reasons_ne_nil]
  obtain rfl | rfl := hevent
  · exact join_text_chunks_isSome
  · exact join_text_chunks_isSome

/-! ## One run of hooks -/

section

variable (project_hooks : ProjectHooks) (exec : Nat → Nat → Exec)

/-- The results of the hooks of a run, in order. -/
def ran (run : Nat) (hooks : List ProjectHook) : List ProjectHookCommandResult :=
  hooks.zipIdx.map fun (hook, i) => run_hook_command hook (exec run i)

/-- A run that has started on `hooks` has the results of those that have ended. -/
def Phase.Follows (run : Nat) (hooks : List ProjectHook) : Phase → Prop
  | .running left results => ∃ ended, hooks = ended ++ left ∧ results = ran exec run ended
  | .returned results => results = ran exec run hooks
  | .dropped => True

variable {project_hooks exec}

theorem ran_concat {run : Nat} {hooks : List ProjectHook} {hook : ProjectHook} :
    ran exec run (hooks ++ [hook]) =
      ran exec run hooks ++ [run_hook_command hook (exec run hooks.length)] := by
  simp [ran, List.zipIdx_append]

@[simp]
theorem ran_length {run : Nat} {hooks : List ProjectHook} :
    (ran exec run hooks).length = hooks.length := by
  simp [ran]

theorem run_hook_command_exits {hook : ProjectHook} {output : Exec} :
    (run_hook_command hook output).exit_code = some 2 ∧
        (run_hook_command hook output).stderr.trim ≠ [] ↔
      ∃ o, output = .ok o ∧ o.exit_code = 2 ∧ o.stderr.trim ≠ [] := by
  cases output <;> simp [run_hook_command]

theorem exists_mem_ran {run : Nat} {hooks : List ProjectHook} :
    (∃ result ∈ ran exec run hooks, result.exit_code = some 2 ∧ result.stderr.trim ≠ []) ↔
      ∃ i < hooks.length, ExitsTwo exec (fun stderr => stderr.trim ≠ []) run i := by
  constructor
  · rintro ⟨result, hmem, hresult⟩
    obtain ⟨⟨hook, i⟩, hi, rfl⟩ := List.mem_map.mp hmem
    exact ⟨i, (List.mem_zipIdx' hi).1, run_hook_command_exits.mp hresult⟩
  · rintro ⟨i, hi, hexits⟩
    refine ⟨run_hook_command hooks[i] (exec run i), ?_, run_hook_command_exits.mpr hexits⟩
    exact List.mem_map.mpr ⟨(hooks[i], i), by simp [List.mem_zipIdx_iff_getElem?, hi], rfl⟩

/-- What a step does to the runs: it adds one, or takes one that is in progress one phase on. -/
theorem step_cases {s t : Session} {a : Action} (h : step project_hooks exec s a = some t) :
    (∃ event, a = .call event ∧
      t = ⟨(begin_hooks project_hooks event s.hook_guard).2,
        s.runs ++ [⟨event, (begin_hooks project_hooks event s.hook_guard).1⟩]⟩) ∨
    (∃ run event hook left results, a = .hook_ended run ∧
      s.runs[run]? = some ⟨event, .running (hook :: left) results⟩ ∧
      t = ⟨s.hook_guard, s.runs.set run ⟨event, .running left
        (results ++ [run_hook_command hook (exec run results.length)])⟩⟩) ∨
    (∃ run event results, a = .ret run ∧
      s.runs[run]? = some ⟨event, .running [] results⟩ ∧
      t = ⟨false, s.runs.set run ⟨event, .returned results⟩⟩) ∨
    (∃ run event left results, a = .abort run ∧
      s.runs[run]? = some ⟨event, .running left results⟩ ∧
      t = ⟨false, s.runs.set run ⟨event, .dropped⟩⟩) := by
  cases a with
  | call event => exact .inl ⟨event, rfl, (Option.some.inj h).symm⟩
  | hook_ended run =>
    simp only [step] at h
    split at h
    · rename_i event hook left results hrun
      exact .inr (.inl ⟨run, event, hook, left, results, rfl, hrun, (Option.some.inj h).symm⟩)
    · cases h
  | ret run =>
    simp only [step] at h
    split at h
    · rename_i event results hrun
      exact .inr (.inr (.inl ⟨run, event, results, rfl, hrun, (Option.some.inj h).symm⟩))
    · cases h
  | abort run =>
    simp only [step] at h
    split at h
    · rename_i event left results hrun
      exact .inr (.inr (.inr ⟨run, event, left, results, rfl, hrun, (Option.some.inj h).symm⟩))
    · cases h

/-- The run with number `run` was called for `event` and follows its hooks. -/
def Called (project_hooks : ProjectHooks) (exec : Nat → Nat → Exec) (run : Nat)
    (event : ProjectHookEvent) (s : Session) : Prop :=
  ∃ phase, s.runs[run]? = some ⟨event, phase⟩ ∧
    phase.Follows exec run (project_hooks.hooks_for event)

/-- A call starts a run exactly when it takes the guard. -/
theorem begin_hooks_guard (event : ProjectHookEvent) (hook_guard : Bool) :
    (begin_hooks project_hooks event hook_guard).2.toNat =
      hook_guard.toNat +
        (HookRun.mk event (begin_hooks project_hooks event hook_guard).1).in_progress.toNat := by
  unfold begin_hooks
  dsimp only
  split_ifs
  · rfl
  · rfl
  · cases hook_guard <;> rfl

/-- A run that leaves its phase adds or takes at most itself. -/
theorem countP_set_run {s : Session} {run : Nat} {before after : HookRun}
    (hguard : s.runs.countP HookRun.in_progress = s.hook_guard.toNat)
    (hrun : s.runs[run]? = some before) (hbefore : before.in_progress = true) :
    s.hook_guard = true ∧
      (s.runs.set run after).countP HookRun.in_progress = after.in_progress.toNat := by
  obtain ⟨hlt, rfl⟩ := List.getElem?_eq_some_iff.mp hrun
  have hpos : 0 < s.runs.countP HookRun.in_progress :=
    List.countP_pos_iff.mpr ⟨_, List.getElem_mem hlt, hbefore⟩
  have hheld : s.hook_guard = true := by
    cases hflag : s.hook_guard
    · simp [hguard, hflag] at hpos
    · rfl
  refine ⟨hheld, ?_⟩
  rw [List.countP_set hlt, hguard, hheld]
  simp [hbefore, Bool.toNat, Bool.cond_eq_ite]

/-- The guard is held exactly while a run of hooks is in progress, and there is never a second
one. -/
theorem in_progress_iff_guard {s : Session}
    (h : Reached (step project_hooks exec) .new (fun _ _ => True) s) :
    s.runs.countP HookRun.in_progress = s.hook_guard.toNat := by
  refine Reached.invariant (I := fun s => s.runs.countP HookRun.in_progress = s.hook_guard.toNat)
    rfl (fun s a t hs _ hstep => ?_) h
  obtain ⟨event, rfl, rfl⟩ | ⟨run, event, hook, left, results, rfl, hrun, rfl⟩ |
    ⟨run, event, results, rfl, hrun, rfl⟩ | ⟨run, event, left, results, rfl, hrun, rfl⟩ :=
    step_cases hstep
  · rw [List.countP_append, hs, List.countP_singleton, begin_hooks_guard]
    simp only [Bool.toNat, Bool.cond_eq_ite]
  · obtain ⟨hheld, hcount⟩ := countP_set_run hs hrun rfl
    rw [hcount, hheld]
    rfl
  · exact (countP_set_run hs hrun rfl).2
  · exact (countP_set_run hs hrun rfl).2

/-- A run that is taken on stays called, and so does every other one. -/
theorem called_set {run run' : Nat} {event event' : ProjectHookEvent} {s : Session}
    {before after : Phase} {hook_guard : Bool} (hs : Called project_hooks exec run event s)
    (hbefore : s.runs[run']? = some ⟨event', before⟩)
    (hafter : before.Follows exec run' (project_hooks.hooks_for event) →
      after.Follows exec run' (project_hooks.hooks_for event)) :
    Called project_hooks exec run event ⟨hook_guard, s.runs.set run' ⟨event', after⟩⟩ := by
  obtain ⟨phase, hrun, hfollows⟩ := hs
  by_cases heq : run' = run
  · subst heq
    have hlt : run' < s.runs.length := (List.getElem?_eq_some_iff.mp hrun).1
    have hsame : event' = event ∧ before = phase := by simpa [hrun, eq_comm] using hbefore
    obtain ⟨rfl, rfl⟩ := hsame
    exact ⟨after, List.getElem?_set_self hlt, hafter hfollows⟩
  · exact ⟨phase, by rw [List.getElem?_set_ne heq, hrun], hfollows⟩

/-- The steps of the other runs leave a run as it is, and its own take it on. -/
theorem called_step {run : Nat} {event : ProjectHookEvent} {s t : Session} {a : Action}
    (hs : Called project_hooks exec run event s) (h : step project_hooks exec s a = some t) :
    Called project_hooks exec run event t := by
  obtain ⟨event', rfl, rfl⟩ | ⟨run', event', hook, left, results, rfl, hrun', rfl⟩ |
    ⟨run', event', results, rfl, hrun', rfl⟩ | ⟨run', event', left, results, rfl, hrun', rfl⟩ :=
    step_cases h
  · obtain ⟨phase, hrun, hfollows⟩ := hs
    have hlt : run < s.runs.length := (List.getElem?_eq_some_iff.mp hrun).1
    exact ⟨phase, by rw [List.getElem?_append_left hlt, hrun], hfollows⟩
  · apply called_set hs hrun'
    rintro ⟨ended, hhooks, rfl⟩
    refine ⟨ended ++ [hook], by simp [hhooks], ?_⟩
    rw [ran_concat, ran_length]
  · apply called_set hs hrun'
    rintro ⟨ended, hhooks, rfl⟩
    simp [Phase.Follows, hhooks]
  · apply called_set hs hrun'
    exact fun _ => trivial

/-- A call that finds the flag clear starts on its hooks. -/
theorem called_of_call {event : ProjectHookEvent} {s t : Session} (hfree : s.hook_guard = false)
    (h : step project_hooks exec s (.call event) = some t) :
    Called project_hooks exec s.runs.length event t := by
  refine ⟨(begin_hooks project_hooks event s.hook_guard).1, ?_, ?_⟩
  · rw [← Option.some.inj h]
    exact List.getElem?_concat_length
  have hempty (hnone : project_hooks.hooks_for event = []) :
      (Phase.returned []).Follows exec s.runs.length (project_hooks.hooks_for event) := by
    rw [hnone]
    rfl
  unfold begin_hooks
  dsimp only
  split
  · rename_i hall
    refine hempty (List.isEmpty_iff.mp (List.all_eq_true.mp hall event ?_))
    cases event <;> simp
  split
  · rename_i hnone
    exact hempty hnone
  · rw [hfree]
    exact ⟨[], rfl, rfl⟩

variable (project_hooks exec) in
/-- A run that finds the guard free and returns, in whatever order the other runs of the session
are made, reports blocked exactly when one of its hooks exits with code 2 and says why. -/
theorem blocked_iff_exits_two {s called t : Session} {event : ProjectHookEvent}
    {results : List ProjectHookCommandResult}
    (hevent : event = .UserPromptSubmit ∨ event = .Stop)
    (hfree : s.hook_guard = false)
    (hcall : step project_hooks exec s (.call event) = some called)
    (ht : Reached (step project_hooks exec) called (fun _ _ => True) t)
    (hreturned : t.runs[s.runs.length]? = some ⟨event, .returned results⟩) :
    reports_blocked event results = true ↔
      ∃ i < (project_hooks.hooks_for event).length,
        ExitsTwo exec (fun stderr => stderr.trim ≠ []) s.runs.length i := by
  obtain ⟨phase, hphase, hfollows⟩ : Called project_hooks exec s.runs.length event t :=
    ht.invariant (called_of_call hfree hcall) fun _ _ _ hs _ hstep => called_step hs hstep
  obtain rfl : phase = .returned results := by
    rw [hreturned] at hphase
    exact (congrArg HookRun.phase (Option.some.inj hphase)).symm
  obtain rfl : results = ran exec s.runs.length (project_hooks.hooks_for event) := hfollows
  rw [reports_blocked_iff hevent, exists_mem_ran]

end

/-! ## Two ways past a hook -/

/-- One hook for each event. -/
def one_each : ProjectHooks where
  hooks _ := [{ name := none, command := ["hook".toList] }]

/-- Every hook exits with code 2 and writes `stderr`. -/
def exits_two (stderr : Text) (_ _ : Nat) : Exec :=
  .ok { exit_code := 2, stdout := [], stderr }

/-- A hook that says nothing on stderr does not block, and neither does one that is called while a
tool hook holds the guard. -/
theorem hooks_bypassed :
    (∃ s, Reached (step one_each (exits_two ['\n'])) .new (fun _ _ => True) s ∧
      ¬ NeverBypassed one_each (exits_two ['\n']) s) ∧
    ∃ s, Reached (step one_each (exits_two ['x'])) .new (fun _ _ => True) s ∧
      ¬ NeverBypassed one_each (exits_two ['x']) s := by
  constructor
  · have hcall : Reached (step one_each (exits_two ['\n'])) .new (fun _ _ => True) _ :=
      .step (a := .call .UserPromptSubmit) .start trivial rfl
    have hended := hcall.step (a := .hook_ended 0) trivial rfl
    refine ⟨_, hended.step (a := .ret 0) trivial rfl, fun hnever => ?_⟩
    have hblocked := hnever 0 _ _ (.inl rfl) rfl ⟨0, Nat.one_pos, _, rfl, rfl, trivial⟩
    cases hblocked
  · have htool : Reached (step one_each (exits_two ['x'])) .new (fun _ _ => True) _ :=
      .step (a := .call .ToolBefore) .start trivial rfl
    refine ⟨_, htool.step (a := .call .UserPromptSubmit) trivial rfl, fun hnever => ?_⟩
    have hblocked := hnever 1 _ _ (.inl rfl) rfl ⟨0, Nat.one_pos, _, rfl, rfl, trivial⟩
    cases hblocked

/-- A stop hook that exits with code 2 blocks, though a tool hook is called while it runs. -/
theorem stop_hook_blocks :
    reports_blocked .Stop [run_hook_command ⟨none, ["hook".toList]⟩ (exits_two ['x'] 0 0)] = true ↔
      ∃ i < (one_each.hooks_for .Stop).length,
        ExitsTwo (exits_two ['x']) (fun stderr => stderr.trim ≠ []) 0 i :=
  blocked_iff_exits_two one_each (exits_two ['x']) (s := .new) (.inr rfl) rfl rfl
    (((Reached.start.step (a := .call .ToolBefore) trivial rfl).step (a := .hook_ended 0) trivial
      rfl).step (a := .ret 0) trivial rfl) rfl

end Ecode.project_hooks
