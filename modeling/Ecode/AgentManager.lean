-- The manager of the agents of a session: live agents, an archive of ended ones, and the operations
-- that move agents from the one to the other (core/src/agent_tool.rs).
import Ecode.Calendar
import Ecode.ExecStreams
import Ecode.Text
import Ecode.Tiers

open Ecode.calendar (DateTime SECOND HOUR DAY)
open Ecode.history (saturating_add)
open Ecode.tiers

namespace Ecode.agent_tool

inductive AgentStatus where
  | Pending
  | Running
  | Completed
  | Failed
  | Cancelled
  deriving DecidableEq, Repr

def AgentStatus.is_active : AgentStatus → Bool
  | .Pending | .Running => true
  | .Completed | .Failed | .Cancelled => false

def AgentStatus.is_terminal : AgentStatus → Bool
  | .Completed | .Failed | .Cancelled => true
  | .Pending | .Running => false

/-- A record, without what only says how the agent is started and shown. -/
structure Agent where
  id : Text
  batch_id : Option Text
  model : Text
  prompt : Text
  context : Option Text
  output_goal : Option Text
  files : List Text
  read_only : Bool
  status : AgentStatus
  result : Option Text
  error : Option Text
  created_at : DateTime
  started_at : Option DateTime
  completed_at : Option DateTime
  progress : List Text
  worktree_path : Option Text
  branch_name : Option Text
  worktree_base : Option Text
  last_activity : DateTime
  deriving DecidableEq, Repr

structure AgentManagerDiagnostics where
  terminal_compactions : Nat := 0
  progress_entries_trimmed : Nat := 0
  progress_lines_truncated : Nat := 0
  payloads_truncated : Nat := 0
  terminal_agents_pruned : Nat := 0
  archived_terminal_agents : Nat := 0
  status_terminal_agents_omitted : Nat := 0
  deriving DecidableEq, Repr

/-- `HashMap<String, Agent>`. -/
abbrev AgentMap := Records Text Agent

/-- The order in which a map is gone through: any order of its entries. -/
structure Order where
  iterate : List (Record Text Agent) → List (Record Text Agent)
  perm : ∀ entries, (iterate entries).Perm entries

/-- The readings of `Utc::now()` in one call, in their order. -/
abbrev Clock := Nat → DateTime

/-- `handles` has the agents whose task has not been let go. -/
structure AgentManager where
  agents : AgentMap := ∅
  archived_terminal_agents : AgentMap := ∅
  handles : Finset Text := ∅
  event_sender : Bool := false
  diagnostics : AgentManagerDiagnostics := {}

def MAX_AGENT_PROGRESS_ENTRIES : Nat := 96
def MAX_AGENT_PROGRESS_LINE_BYTES : Nat := 2048
def MAX_AGENT_RESULT_BYTES : Nat := 64 * 1024
def MAX_TRACKED_TERMINAL_AGENTS : Nat := 512
def MAX_STATUS_TERMINAL_AGENTS : Nat := 128

/-- Thirty minutes. -/
def inactivity_timeout : Int := 30 * 60 * SECOND

def AgentManager.new : AgentManager := {}

/-! ## Ended agents -/

/-- The longest end of the text that fits, from the start of a character on. -/
def tail_utf8 (max_bytes : Nat) : Text → Text
  | [] => []
  | c :: text => if Text.len (c :: text) ≤ max_bytes then c :: text else tail_utf8 max_bytes text

def trim_to_tail_utf8 (text : Text) (max_bytes : Nat) : Text :=
  if Text.len text ≤ max_bytes then text else '…' :: tail_utf8 max_bytes text

/-- One if the text became shorter. -/
def shortened (original trimmed : Text) : Nat :=
  if Text.len trimmed < Text.len original then 1 else 0

structure AgentCompactionDelta where
  progress_entries_trimmed : Nat
  progress_lines_truncated : Nat
  payloads_truncated : Nat
  deriving DecidableEq, Repr

/-- The last entries of the list, at most as many as are kept. -/
def last_entries (progress : List Text) : List Text :=
  progress.drop (progress.length - MAX_AGENT_PROGRESS_ENTRIES)

def compact_terminal_agent (agent : Agent) : Agent × AgentCompactionDelta :=
  let kept := last_entries agent.progress
  let trim_line line := trim_to_tail_utf8 line MAX_AGENT_PROGRESS_LINE_BYTES
  let trim_payload payload := trim_to_tail_utf8 payload MAX_AGENT_RESULT_BYTES
  let payloads := agent.result.toList ++ agent.error.toList
  ({ agent with
      progress := kept.map trim_line
      result := agent.result.map trim_payload
      error := agent.error.map trim_payload
      prompt := []
      context := none
      output_goal := none
      files := [] },
    { progress_entries_trimmed := agent.progress.length - MAX_AGENT_PROGRESS_ENTRIES
      progress_lines_truncated := (kept.map fun line => shortened line (trim_line line)).sum
      payloads_truncated := (payloads.map fun text => shortened text (trim_payload text)).sum })

def AgentManagerDiagnostics.add (diagnostics : AgentManagerDiagnostics)
    (delta : AgentCompactionDelta) : AgentManagerDiagnostics :=
  { diagnostics with
    terminal_compactions := saturating_add diagnostics.terminal_compactions 1
    progress_entries_trimmed :=
      saturating_add diagnostics.progress_entries_trimmed delta.progress_entries_trimmed
    progress_lines_truncated :=
      saturating_add diagnostics.progress_lines_truncated delta.progress_lines_truncated
    payloads_truncated := saturating_add diagnostics.payloads_truncated delta.payloads_truncated }

def Agent.ended (agent : Agent) : Bool := agent.status.is_terminal

/-- The key of the sort in `prune_terminal_agents`. -/
def Agent.ended_at (agent : Agent) : DateTime := agent.completed_at.getD agent.created_at

namespace AgentManager

def terminal_count (m : AgentManager) : Nat := (finished Agent.ended m.agents.entries).length

/-- The loop of `prune_terminal_agents`. -/
def archive (m : AgentManager) (agent_id : Text) : AgentManager :=
  let m := { m with handles := m.handles.erase agent_id }
  match m.agents.lookup agent_id with
  | some agent =>
    { m with
      agents := m.agents.erase agent_id
      archived_terminal_agents := m.archived_terminal_agents.insert agent_id agent }
  | none => m

def prune_terminal_agents (order : Order) (m : AgentManager) : AgentManager :=
  if m.terminal_count ≤ MAX_TRACKED_TERMINAL_AGENTS then m
  else
    let terminal :=
      oldest_first Agent.ended_at (finished Agent.ended (order.iterate m.agents.entries))
    let to_remove := m.terminal_count - MAX_TRACKED_TERMINAL_AGENTS
    let pruned := (terminal.take to_remove).map Prod.snd
    let m := pruned.foldl archive m
    { m with
      diagnostics := { m.diagnostics with
        terminal_agents_pruned :=
          saturating_add m.diagnostics.terminal_agents_pruned pruned.length
        archived_terminal_agents := m.archived_terminal_agents.entries.length } }

def finalize_terminal_agent (order : Order) (m : AgentManager) (agent_id : Text) : AgentManager :=
  let m := { m with handles := m.handles.erase agent_id }
  let m := match m.agents.lookup agent_id with
    | some agent =>
      { m with
        agents := alter m.agents agent_id fun agent => (compact_terminal_agent agent).1
        diagnostics := m.diagnostics.add (compact_terminal_agent agent).2 }
    | none => m
  m.prune_terminal_agents order

/-- The count of the agents that the sent status leaves out. -/
def send_agent_status_update (m : AgentManager) : AgentManager :=
  if m.event_sender then
    { m with
      diagnostics := { m.diagnostics with
        status_terminal_agents_omitted := saturating_add
          m.diagnostics.status_terminal_agents_omitted
          (m.terminal_count - MAX_STATUS_TERMINAL_AGENTS) } }
  else m

end AgentManager

/-! ## Operations -/

def record_activity (now : DateTime) (agent : Agent) : Agent := { agent with last_activity := now }

/-- The arguments of `create_agent`. -/
structure AgentRequest where
  model : Text
  prompt : Text
  context : Option Text
  output_goal : Option Text
  files : List Text
  read_only : Bool
  batch_id : Option Text
  worktree_branch : Option Text
  worktree_base : Option Text
  deriving DecidableEq, Repr

def Agent.create (clock : Clock) (agent_id : Text) (request : AgentRequest) : Agent where
  id := agent_id
  batch_id := request.batch_id
  model := request.model
  prompt := request.prompt
  context := request.context
  output_goal := request.output_goal
  files := request.files
  read_only := request.read_only
  status := .Pending
  result := none
  error := none
  created_at := clock 0
  started_at := none
  completed_at := none
  progress := []
  worktree_path := none
  branch_name := request.worktree_branch
  worktree_base := request.worktree_base
  last_activity := clock 1

def Agent.set_status (clock : Clock) (status : AgentStatus) (agent : Agent) : Agent :=
  let agent := { agent with status }
  let agent :=
    if status = .Running ∧ agent.started_at = none then { agent with started_at := some (clock 0) }
    else agent
  let agent :=
    if status.is_terminal then { agent with completed_at := some (clock 0) } else agent
  record_activity (clock 1) agent

def Agent.set_result (clock : Clock) (result : Except Text Text) (agent : Agent) : Agent :=
  let agent := match result with
    | .ok output => { agent with result := some output, status := .Completed }
    | .error error => { agent with error := some error, status := .Failed }
  record_activity (clock 1) { agent with completed_at := some (clock 0) }

def two_digits (n : Nat) : Text := if n < 10 then '0' :: Text.ofNat n else Text.ofNat n

/-- `%H:%M:%S`. -/
def time_of_day (now : DateTime) : Text :=
  let seconds := (now % DAY / SECOND).toNat
  Text.join ":".toList
    [two_digits (seconds / 3600), two_digits (seconds / 60 % 60), two_digits (seconds % 60)]

def progress_entry (now : DateTime) (message : Text) : Text :=
  time_of_day now ++ ": ".toList ++ message

def Agent.add_entry (clock : Clock) (message : Text) (agent : Agent) : Agent :=
  let entry := trim_to_tail_utf8 (progress_entry (clock 0) message) MAX_AGENT_PROGRESS_LINE_BYTES
  record_activity (clock 1) { agent with progress := last_entries (agent.progress ++ [entry]) }

def Agent.cancel (now : DateTime) (agent : Agent) : Agent :=
  { agent with status := .Cancelled, completed_at := some now }

def Agent.time_out (now activity : DateTime) (agent : Agent) : Agent :=
  record_activity activity
    { agent with
      status := .Failed
      error := some "Agent timed out after 30 minutes of inactivity.".toList
      completed_at := some now }

namespace AgentManager

/-- `create_agent_internal`, with the id that `Uuid::new_v4` gives. -/
def create_agent (clock : Clock) (m : AgentManager) (agent_id : Text) (request : AgentRequest) :
    AgentManager :=
  let m := { m with agents := m.agents.insert agent_id (Agent.create clock agent_id request) }
  let m := m.send_agent_status_update
  { m with handles := insert agent_id m.handles }

def get_agent (m : AgentManager) (agent_id : Text) : Option Agent :=
  (m.agents.lookup agent_id).or (m.archived_terminal_agents.lookup agent_id)

/-- The loop of `list_agents`: no id twice. -/
def collect_filtered (keep : Agent → Bool) (seen_ids : List Text) : List Agent → List Agent
  | [] => []
  | agent :: agents =>
    if keep agent && agent.id ∉ seen_ids then
      agent :: collect_filtered keep (agent.id :: seen_ids) agents
    else collect_filtered keep seen_ids agents

def list_agents (order : Order) (now : DateTime) (m : AgentManager)
    (status_filter : Option AgentStatus) (batch_id : Option Text) (recent_only : Bool) :
    List Agent :=
  let keep (agent : Agent) : Bool :=
    (status_filter.all fun filter => agent.status = filter) &&
    (batch_id.all fun batch => agent.batch_id = some batch) &&
    !(recent_only && agent.created_at < now - 2 * HOUR)
  let values (map : AgentMap) := (order.iterate map.entries).map Sigma.snd
  collect_filtered keep [] (values m.agents ++ values m.archived_terminal_agents)

def update_agent_status (order : Order) (clock : Clock) (m : AgentManager) (agent_id : Text)
    (status : AgentStatus) : AgentManager :=
  let terminal := (m.agents.lookup agent_id).isSome && status.is_terminal
  let m := { m with agents := alter m.agents agent_id (Agent.set_status clock status) }
  let m := if terminal then m.finalize_terminal_agent order agent_id else m
  m.send_agent_status_update

def update_agent_result (order : Order) (clock : Clock) (m : AgentManager) (agent_id : Text)
    (result : Except Text Text) : AgentManager :=
  if (m.agents.lookup agent_id).isSome then
    let m := { m with agents := alter m.agents agent_id (Agent.set_result clock result) }
    (m.finalize_terminal_agent order agent_id).send_agent_status_update
  else m

def add_progress (clock : Clock) (m : AgentManager) (agent_id message : Text) : AgentManager :=
  match m.agents.lookup agent_id with
  | some agent =>
    let raw_entry := progress_entry (clock 0) message
    let line_truncated := if MAX_AGENT_PROGRESS_LINE_BYTES < Text.len raw_entry then 1 else 0
    let entries_trimmed := agent.progress.length + 1 - MAX_AGENT_PROGRESS_ENTRIES
    let m :=
      { m with
        agents := alter m.agents agent_id (Agent.add_entry clock message)
        diagnostics := { m.diagnostics with
          progress_lines_truncated :=
            saturating_add m.diagnostics.progress_lines_truncated line_truncated
          progress_entries_trimmed :=
            saturating_add m.diagnostics.progress_entries_trimmed entries_trimmed } }
    m.send_agent_status_update
  | none => m

def touch_agent (clock : Clock) (m : AgentManager) (agent_id : Text) : AgentManager :=
  { m with agents := alter m.agents agent_id (record_activity (clock 0)) }

def update_worktree_info (m : AgentManager) (agent_id worktree_path branch_name : Text) :
    AgentManager :=
  { m with
    agents := alter m.agents agent_id fun agent =>
      { agent with worktree_path := some worktree_path, branch_name := some branch_name } }

def cancel_agent (order : Order) (now : DateTime) (m : AgentManager) (agent_id : Text) :
    AgentManager × Bool :=
  if agent_id ∈ m.handles then
    let m :=
      { m with
        handles := m.handles.erase agent_id
        agents := alter m.agents agent_id (Agent.cancel now) }
    (m.finalize_terminal_agent order agent_id, true)
  else (m, false)

/-- The loop of `cancel_batch`: the manager and the count behind it. -/
def cancel_each (order : Order) (clock : Clock) (m : AgentManager) :
    List Text → AgentManager × Nat
  | [] => (m, 0)
  | agent_id :: agent_ids =>
    let (m, cancelled) := m.cancel_agent order (clock 0) agent_id
    let (m, count) := cancel_each order (fun n => clock (n + 1)) m agent_ids
    (m, (if cancelled then 1 else 0) + count)

def batch_agents (order : Order) (m : AgentManager) (batch_id : Text) : List Text :=
  ((order.iterate m.agents.entries).filter fun e => e.2.batch_id = some batch_id).map
    fun e => e.2.id

def cancel_batch (order : Order) (clock : Clock) (m : AgentManager) (batch_id : Text) :
    AgentManager × Nat :=
  m.cancel_each order clock (m.batch_agents order batch_id)

/-- What the watchdog does with an agent that was inactive for too long. -/
def time_out (order : Order) (now activity : DateTime) (m : AgentManager) (agent_id : Text) :
    AgentManager :=
  let m :=
    { m with
      handles := m.handles.erase agent_id
      agents := alter m.agents agent_id (Agent.time_out now activity) }
  m.finalize_terminal_agent order agent_id

def time_out_each (order : Order) (now : DateTime) (clock : Clock) (m : AgentManager) :
    List Text → AgentManager
  | [] => m
  | agent_id :: agent_ids =>
    time_out_each order now (fun n => clock (n + 1)) (m.time_out order now (clock 0) agent_id)
      agent_ids

def timeout_ids (order : Order) (now : DateTime) (m : AgentManager) : List Text :=
  ((order.iterate m.agents.entries).filter fun e =>
    e.2.status.is_active && inactivity_timeout < now - e.2.last_activity).map Sigma.fst

/-- One tick of the watchdog. -/
def watchdog (order : Order) (clock : Clock) (m : AgentManager) : AgentManager :=
  let timeout_ids := m.timeout_ids order (clock 0)
  if timeout_ids = [] then m
  else
    (m.time_out_each order (clock 0) (fun n => clock (n + 1)) timeout_ids).send_agent_status_update

/-- A new session: the archive and the diagnostics start anew. -/
def set_event_sender (m : AgentManager) : AgentManager :=
  { m with event_sender := true, archived_terminal_agents := ∅, diagnostics := {} }

end AgentManager

/-! ## Runs -/

inductive Operation where
  | create_agent (agent_id : Text) (request : AgentRequest)
  | update_agent_status (agent_id : Text) (status : AgentStatus)
  | update_agent_result (agent_id : Text) (result : Except Text Text)
  | add_progress (agent_id message : Text)
  | touch_agent (agent_id : Text)
  | update_worktree_info (agent_id worktree_path branch_name : Text)
  | cancel_agent (agent_id : Text)
  | cancel_batch (batch_id : Text)
  | watchdog
  | set_event_sender

/-- An operation, the times that are read in it and the order in which it goes through the maps. -/
structure Event where
  operation : Operation
  clock : Clock
  order : Order

def Event.run (m : AgentManager) (event : Event) : AgentManager :=
  match event.operation with
  | .create_agent agent_id request => m.create_agent event.clock agent_id request
  | .update_agent_status agent_id status =>
    m.update_agent_status event.order event.clock agent_id status
  | .update_agent_result agent_id result =>
    m.update_agent_result event.order event.clock agent_id result
  | .add_progress agent_id message => m.add_progress event.clock agent_id message
  | .touch_agent agent_id => m.touch_agent event.clock agent_id
  | .update_worktree_info agent_id worktree_path branch_name =>
    m.update_worktree_info agent_id worktree_path branch_name
  | .cancel_agent agent_id => (m.cancel_agent event.order (event.clock 0) agent_id).1
  | .cancel_batch batch_id => (m.cancel_batch event.order event.clock batch_id).1
  | .watchdog => m.watchdog event.order event.clock
  | .set_event_sender => m.set_event_sender

def AgentManager.run (m : AgentManager) (events : List Event) : AgentManager :=
  events.foldl Event.run m

/-- The agent that an event creates. -/
def Event.created (event : Event) : Option Text :=
  match event.operation with
  | .create_agent agent_id _ => some agent_id
  | _ => none

end Ecode.agent_tool
