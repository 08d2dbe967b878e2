-- No record of an agent is lost: after any operations of a session every agent that was created is
-- found, and the archive takes the oldest of the ended agents (core/src/agent_tool.rs).
import Ecode.AgentManager

open Ecode.calendar (DateTime)
open Ecode.tiers

namespace Ecode.agent_tool

/-! ## Invariants of the two maps -/

/-- The agents that an ended status has a time for. -/
def Agent.Complete (agent : Agent) : Prop := agent.ended = true → agent.completed_at.isSome = true

/-- What no operation changes. -/
def Agent.origin (agent : Agent) : Text × Option Text × Text × DateTime :=
  (agent.id, agent.batch_id, agent.model, agent.created_at)

structure Kept (t : Tiers Text Agent) : Prop where
  disjoint : t.Disjoint
  archived : ∀ id agent, t.archive.lookup id = some agent → agent.ended = true
  complete : ∀ id agent, t.find id = some agent → agent.Complete
  keyed : ∀ id agent, t.find id = some agent → agent.id = id

def terminal_count (t : Tiers Text Agent) : Nat := (finished Agent.ended t.live.entries).length

def Good (t : Tiers Text Agent) : Prop := Kept t ∧ terminal_count t ≤ MAX_TRACKED_TERMINAL_AGENTS

/-- The bound on the ended agents holds afterwards, and what came to the archive completed no later
than what has ended and is still live. -/
structure Advances (t t' : Tiers Text Agent) : Prop where
  bounded : terminal_count t' ≤ MAX_TRACKED_TERMINAL_AGENTS
  oldest : ∀ id agent, t.archive.lookup id = none → t'.archive.lookup id = some agent →
    ∀ id' agent', t'.live.lookup id' = some agent' → agent'.ended = true →
      ∃ time time', agent.completed_at = some time ∧ agent'.completed_at = some time' ∧
        time ≤ time'

/-- What is found under an id, up to what operations change. -/
def origins (t : Tiers Text Agent) (id : Text) : Option (Text × Option Text × Text × DateTime) :=
  (t.find id).map Agent.origin

/-! ## Changes and prunings -/

section changes

variable {t t' : Tiers Text Agent} {order : Order} {f : Agent → Agent}

/-- A change of a record that keeps what the invariants say of it. -/
structure Benign (f : Agent → Agent) : Prop where
  origin : ∀ agent, (f agent).origin = agent.origin
  complete : ∀ agent, agent.Complete → (f agent).Complete

/-- A change that does not end an agent. -/
structure Quiet (f : Agent → Agent) : Prop extends Benign f where
  quiet : ∀ agent, (f agent).ended = true → agent.ended = true

theorem Kept.change (h : Kept t) (hf : Benign f) (id : Text) : Kept (t.change id f) := by
  refine ⟨h.disjoint.change id f, h.archived, ?_, ?_⟩
  · intro id' agent hfind
    rcases find_change hfind with hsame | ⟨before, hbefore, rfl⟩
    · exact h.complete id' agent hsame
    · exact hf.complete before (h.complete id' before hbefore)
  · intro id' agent hfind
    rcases find_change hfind with hsame | ⟨before, hbefore, rfl⟩
    · exact h.keyed id' agent hsame
    · rw [← h.keyed id' before hbefore]
      exact congrArg Prod.fst (hf.origin before)

theorem origins_change (hf : Benign f) (t : Tiers Text Agent) (id : Text) :
    origins (t.change id f) = origins t := by
  funext id'
  exact map_find_change hf.origin t id id'

/-- Nothing comes to the archive, and no more agents have ended. -/
theorem advances_of_archive_eq (hbounded : terminal_count t' ≤ MAX_TRACKED_TERMINAL_AGENTS)
    (harchive : t'.archive = t.archive) : Advances t t' := by
  refine ⟨hbounded, fun id agent hnone hsome => ?_⟩
  rw [harchive, hnone] at hsome
  cases hsome

theorem Good.change (h : Good t) (hf : Quiet f) (id : Text) : Good (t.change id f) := by
  refine ⟨h.1.change hf.toBenign id, (finished_le ?_).trans h.2⟩
  intro id' agent hlive hended
  rcases live_change hlive with hsame | ⟨before, hbefore, rfl⟩
  · exact ⟨agent, hsame, hended⟩
  · exact ⟨before, hbefore, hf.quiet before hended⟩

/-- What `prune_terminal_agents` does to the maps. -/
def settle (order : Order) (t : Tiers Text Agent) : Tiers Text Agent :=
  t.prune Agent.ended Agent.ended_at MAX_TRACKED_TERMINAL_AGENTS (order.iterate t.live.entries)

theorem settle_bounded (order : Order) (t : Tiers Text Agent) :
    terminal_count (settle order t) ≤ MAX_TRACKED_TERMINAL_AGENTS := by
  unfold terminal_count settle
  exact prune_bounded (order.perm t.live.entries)

theorem Kept.settled (h : Kept t) (order : Order) : Kept (settle order t) := by
  have hperm := order.perm t.live.entries
  have hfind : ∀ id, (settle order t).find id = t.find id :=
    fun id => find_retire_all _ _ _
  refine ⟨h.disjoint.retire_all _, ?_, ?_, ?_⟩
  · intro id agent harchive
    rcases hold : t.archive.lookup id with _ | before
    · exact (prune_oldest hperm hold harchive).1
    · have hlive : t.live.lookup id = none := by
        rcases h.disjoint id with hlive | hnone
        · exact hlive
        · rw [hold] at hnone
          cases hnone
      have hsame : (settle order t).archive.lookup id = some before := by
        unfold settle Tiers.prune
        rw [archive_retire_all]
        simp [Tiers.find, hlive, hold]
      rw [hsame] at harchive
      obtain rfl := Option.some.inj harchive
      exact h.archived id before hold
  · intro id agent hsome
    rw [hfind] at hsome
    exact h.complete id agent hsome
  · intro id agent hsome
    rw [hfind] at hsome
    exact h.keyed id agent hsome

theorem origins_settle (order : Order) (t : Tiers Text Agent) :
    origins (settle order t) = origins t := by
  funext id
  exact congrArg (Option.map Agent.origin) (find_retire_all t _ id)

theorem Agent.Complete.completed_at {agent : Agent} (h : agent.Complete)
    (hended : agent.ended = true) : agent.completed_at = some agent.ended_at := by
  obtain ⟨time, htime⟩ := Option.isSome_iff_exists.mp (h hended)
  simp [Agent.ended_at, htime]

/-- A pruning of what a change has made of the maps. -/
theorem Kept.advances (h : Kept t') (harchive : t'.archive = t.archive) (order : Order) :
    Advances t (settle order t') := by
  have hperm := order.perm t'.live.entries
  have hsettled := h.settled order
  refine ⟨settle_bounded order t', ?_⟩
  intro id agent hnone hsome id' agent' hlive hended'
  rw [← harchive] at hnone
  obtain ⟨hended, hyounger⟩ := prune_oldest hperm hnone hsome
  have hcomplete : agent.Complete := by
    apply hsettled.complete id
    exact (find_iff hsettled.disjoint).mpr (.inr hsome)
  have hcomplete' : agent'.Complete := by
    apply hsettled.complete id'
    exact (find_iff hsettled.disjoint).mpr (.inl hlive)
  exact ⟨agent.ended_at, agent'.ended_at, hcomplete.completed_at hended,
    hcomplete'.completed_at hended', hyounger id' agent' hlive hended'⟩

theorem Kept.good (h : Kept t) (order : Order) : Good (settle order t) :=
  ⟨h.settled order, settle_bounded order t⟩

end changes

/-! ## The operations on the two maps -/

section operations

variable {m : AgentManager} {order : Order} {clock : Clock} {agent_id : Text}

def AgentManager.tiers (m : AgentManager) : Tiers Text Agent :=
  ⟨m.agents, m.archived_terminal_agents⟩

theorem archive_tiers (m : AgentManager) (agent_id : Text) :
    (m.archive agent_id).tiers = m.tiers.retire agent_id := by
  unfold AgentManager.archive Tiers.retire AgentManager.tiers
  dsimp only
  split
  · next hlookup => simp [hlookup]
  · next hlookup => simp [hlookup]

theorem foldl_archive_tiers (m : AgentManager) (agent_ids : List Text) :
    (agent_ids.foldl AgentManager.archive m).tiers = m.tiers.retire_all agent_ids := by
  unfold Tiers.retire_all
  induction agent_ids generalizing m with
  | nil => rfl
  | cons agent_id agent_ids ih => rw [List.foldl_cons, List.foldl_cons, ih, archive_tiers]

theorem prune_tiers (order : Order) (m : AgentManager) :
    (m.prune_terminal_agents order).tiers = settle order m.tiers := by
  have hcount : (finished Agent.ended (order.iterate m.agents.entries)).length =
      m.terminal_count := ((order.perm m.agents.entries).filter _).length_eq
  unfold settle Tiers.prune surplus AgentManager.prune_terminal_agents
  rw [show m.tiers.live = m.agents from rfl, hcount]
  split_ifs with hfew
  · have hnone : m.terminal_count - MAX_TRACKED_TERMINAL_AGENTS = 0 := by omega
    rw [hnone, List.take_zero]
    rfl
  · rw [← foldl_archive_tiers]
    unfold AgentManager.tiers
    dsimp only

theorem finalize_tiers (order : Order) (m : AgentManager) (agent_id : Text) :
    (m.finalize_terminal_agent order agent_id).tiers =
      settle order (m.tiers.change agent_id fun agent => (compact_terminal_agent agent).1) := by
  unfold AgentManager.finalize_terminal_agent
  dsimp only
  rw [prune_tiers]
  rcases hlookup : m.agents.lookup agent_id with _ | agent
  · have hsame : m.tiers.change agent_id (fun agent => (compact_terminal_agent agent).1) =
        m.tiers := by
      unfold Tiers.change alter AgentManager.tiers
      simp [hlookup]
    rw [hsame]
    rfl
  · rfl

@[simp]
theorem send_tiers (m : AgentManager) : m.send_agent_status_update.tiers = m.tiers := by
  unfold AgentManager.send_agent_status_update AgentManager.tiers
  split_ifs
  · rfl
  · rfl

theorem compact_benign : Benign fun agent => (compact_terminal_agent agent).1 :=
  ⟨fun _ => rfl, fun _ h => h⟩

/-- An ending of an agent, as all operations do it: its record is changed, compacted, and the maps
are pruned. -/
def finish (order : Order) (f : Agent → Agent) (agent_id : Text) (t : Tiers Text Agent) :
    Tiers Text Agent :=
  settle order
    ((t.change agent_id f).change agent_id fun agent => (compact_terminal_agent agent).1)

theorem finish_spec {t : Tiers Text Agent} {f : Agent → Agent} (h : Good t) (hf : Benign f)
    (order : Order) (agent_id : Text) : Good (finish order f agent_id t) ∧
      origins (finish order f agent_id t) = origins t ∧ Advances t (finish order f agent_id t) := by
  have hchanged := (h.1.change hf agent_id).change compact_benign agent_id
  refine ⟨hchanged.good order, ?_, hchanged.advances (t := t) rfl order⟩
  unfold finish
  rw [origins_settle, origins_change compact_benign, origins_change hf]

/-! ### Which changes the operations make -/

theorem set_status_ended (clock : Clock) (status : AgentStatus) (agent : Agent) :
    (agent.set_status clock status).ended = status.is_terminal := by
  unfold Agent.set_status Agent.ended record_activity
  dsimp only
  split_ifs <;> rfl

theorem set_status_benign (clock : Clock) (status : AgentStatus) :
    Benign (Agent.set_status clock status) := by
  refine ⟨fun agent => ?_, fun agent _ hended => ?_⟩
  · unfold Agent.set_status record_activity
    dsimp only
    split_ifs <;> rfl
  · rw [set_status_ended] at hended
    unfold Agent.set_status record_activity
    dsimp only
    rw [if_pos hended]
    rfl

theorem set_status_quiet (clock : Clock) {status : AgentStatus} (h : status.is_terminal = false) :
    Quiet (Agent.set_status clock status) := by
  refine ⟨set_status_benign clock status, fun agent hended => ?_⟩
  rw [set_status_ended, h] at hended
  cases hended

theorem set_result_benign (clock : Clock) (result : Except Text Text) :
    Benign (Agent.set_result clock result) := by
  cases result with
  | ok output => exact ⟨fun _ => rfl, fun _ _ _ => rfl⟩
  | error error => exact ⟨fun _ => rfl, fun _ _ _ => rfl⟩

theorem cancel_benign (now : DateTime) : Benign (Agent.cancel now) :=
  ⟨fun _ => rfl, fun _ _ _ => rfl⟩

theorem time_out_benign (now activity : DateTime) : Benign (Agent.time_out now activity) :=
  ⟨fun _ => rfl, fun _ _ _ => rfl⟩

/-- A change of fields that the invariants do not read. -/
theorem quiet_of_fields {f : Agent → Agent} (horigin : ∀ agent, (f agent).origin = agent.origin)
    (hstatus : ∀ agent, (f agent).status = agent.status)
    (htime : ∀ agent, (f agent).completed_at = agent.completed_at) : Quiet f := by
  refine ⟨⟨horigin, fun agent h hended => ?_⟩, fun agent hended => ?_⟩
  · rw [htime]
    apply h
    unfold Agent.ended at hended ⊢
    rwa [hstatus] at hended
  · unfold Agent.ended at hended ⊢
    rwa [hstatus] at hended

/-- What an operation that creates no agent does to good maps. -/
def Moves (m m' : AgentManager) : Prop := Good m.tiers →
  Good m'.tiers ∧ origins m'.tiers = origins m.tiers ∧ Advances m.tiers m'.tiers

theorem Moves.same {m m' : AgentManager} (h : m'.tiers = m.tiers) : Moves m m' := by
  intro hgood
  rw [h]
  exact ⟨hgood, rfl, advances_of_archive_eq hgood.2 rfl⟩

theorem Moves.quiet {m m' : AgentManager} {f : Agent → Agent} (hf : Quiet f) (agent_id : Text)
    (h : m'.tiers = m.tiers.change agent_id f) : Moves m m' := by
  intro hgood
  rw [h]
  exact ⟨hgood.change hf agent_id, origins_change hf.toBenign _ _,
    advances_of_archive_eq (hgood.change hf agent_id).2 rfl⟩

theorem Moves.finish {m m' : AgentManager} {f : Agent → Agent} (hf : Benign f) (order : Order)
    (agent_id : Text) (h : m'.tiers = finish order f agent_id m.tiers) : Moves m m' := by
  intro hgood
  rw [h]
  exact finish_spec hgood hf order agent_id

theorem change_of_none {t : Tiers Text Agent} (h : t.live.lookup agent_id = none)
    (f : Agent → Agent) : t.change agent_id f = t := by
  unfold Tiers.change alter
  rw [h]

theorem update_agent_status_moves (order : Order) (clock : Clock) (m : AgentManager)
    (agent_id : Text) (status : AgentStatus) :
    Moves m (m.update_agent_status order clock agent_id status) := by
  have hsame : ∀ f : Agent → Agent, m.agents.lookup agent_id = none →
      (⟨alter m.agents agent_id f, m.archived_terminal_agents⟩ : Tiers Text Agent) = m.tiers :=
    fun f hnone => change_of_none (t := m.tiers) hnone f
  rcases hlookup : m.agents.lookup agent_id with _ | agent
  · apply Moves.same
    unfold AgentManager.update_agent_status
    rw [hlookup]
    exact (send_tiers _).trans (hsame _ hlookup)
  · rcases hterminal : status.is_terminal with _ | _
    · apply Moves.quiet (set_status_quiet clock hterminal) agent_id
      unfold AgentManager.update_agent_status
      rw [hlookup, hterminal]
      exact send_tiers _
    · apply Moves.finish (set_status_benign clock status) order agent_id
      unfold AgentManager.update_agent_status
      rw [hlookup, hterminal]
      exact (send_tiers _).trans (finalize_tiers order _ agent_id)

theorem update_agent_result_moves (order : Order) (clock : Clock) (m : AgentManager)
    (agent_id : Text) (result : Except Text Text) :
    Moves m (m.update_agent_result order clock agent_id result) := by
  unfold AgentManager.update_agent_result
  split_ifs
  · apply Moves.finish (set_result_benign clock result) order agent_id
    exact (send_tiers _).trans (finalize_tiers order _ agent_id)
  · exact Moves.same rfl

theorem add_progress_moves (clock : Clock) (m : AgentManager) (agent_id message : Text) :
    Moves m (m.add_progress clock agent_id message) := by
  unfold AgentManager.add_progress
  split
  · have hquiet : Quiet (Agent.add_entry clock message) :=
      quiet_of_fields (fun _ => rfl) (fun _ => rfl) fun _ => rfl
    apply Moves.quiet hquiet agent_id
    exact send_tiers _
  · exact Moves.same rfl

theorem touch_agent_moves (clock : Clock) (m : AgentManager) (agent_id : Text) :
    Moves m (m.touch_agent clock agent_id) := by
  have hquiet : Quiet (record_activity (clock 0)) :=
    quiet_of_fields (fun _ => rfl) (fun _ => rfl) fun _ => rfl
  exact Moves.quiet hquiet agent_id rfl

theorem update_worktree_info_moves (m : AgentManager) (agent_id worktree_path branch_name : Text) :
    Moves m (m.update_worktree_info agent_id worktree_path branch_name) := by
  have hquiet : Quiet fun agent =>
      { agent with worktree_path := some worktree_path, branch_name := some branch_name } :=
    quiet_of_fields (fun _ => rfl) (fun _ => rfl) fun _ => rfl
  exact Moves.quiet hquiet agent_id rfl

theorem cancel_agent_moves (order : Order) (now : DateTime) (m : AgentManager) (agent_id : Text) :
    Moves m (m.cancel_agent order now agent_id).1 := by
  unfold AgentManager.cancel_agent
  split_ifs
  · exact Moves.finish (cancel_benign now) order agent_id (finalize_tiers order _ agent_id)
  · exact Moves.same rfl

theorem time_out_moves (order : Order) (now activity : DateTime) (m : AgentManager)
    (agent_id : Text) : Moves m (m.time_out order now activity agent_id) :=
  Moves.finish (time_out_benign now activity) order agent_id (finalize_tiers order _ agent_id)

end operations

/-! ## Operations that end several agents -/

/-- The managers after each of the agents that an operation ends. -/
def each (step : Clock → AgentManager → Text → AgentManager) (clock : Clock) (m : AgentManager) :
    List Text → List AgentManager
  | [] => []
  | agent_id :: agent_ids =>
    step clock m agent_id ::
      each step (fun n => clock (n + 1)) (step clock m agent_id) agent_ids

/-- The managers after each agent that an event ends, and the one after the event. -/
def Event.moments (m : AgentManager) (event : Event) : List AgentManager :=
  (match event.operation with
    | .cancel_batch batch_id =>
      each (fun clock m agent_id => (m.cancel_agent event.order (clock 0) agent_id).1) event.clock m
        (m.batch_agents event.order batch_id)
    | .watchdog =>
      each (fun clock m agent_id => m.time_out event.order (event.clock 0) (clock 0) agent_id)
        (fun n => event.clock (n + 1)) m (m.timeout_ids event.order (event.clock 0))
    | _ => []) ++ [event.run m]

def Advance (m m' : AgentManager) : Prop := Advances m.tiers m'.tiers

section several

variable {m last : AgentManager} {order : Order} {clock : Clock} {agent_ids : List Text}

theorem cancel_each_eq : (m.cancel_each order clock agent_ids).1 =
    (each (fun clock m agent_id => (m.cancel_agent order (clock 0) agent_id).1) clock m
      agent_ids).getLastD m := by
  induction agent_ids generalizing clock m with
  | nil => rfl
  | cons agent_id agent_ids ih =>
    rw [each, List.getLastD_cons, ← ih]
    rfl

theorem time_out_each_eq {now : DateTime} : m.time_out_each order now clock agent_ids =
    (each (fun clock m agent_id => m.time_out order now (clock 0) agent_id) clock m
      agent_ids).getLastD m := by
  induction agent_ids generalizing clock m with
  | nil => rfl
  | cons agent_id agent_ids ih =>
    rw [each, List.getLastD_cons, ← ih]
    rfl

theorem each_spec {step : Clock → AgentManager → Text → AgentManager}
    (hstep : ∀ clock m agent_id, Moves m (step clock m agent_id)) (h : Good m.tiers)
    (hlast : last.tiers = ((each step clock m agent_ids).getLastD m).tiers) :
    Good last.tiers ∧ origins last.tiers = origins m.tiers ∧
      List.IsChain Advance (m :: (each step clock m agent_ids ++ [last])) := by
  induction agent_ids generalizing clock m with
  | nil =>
    obtain ⟨hgood, horigins, hadvances⟩ := Moves.same hlast h
    exact ⟨hgood, horigins, List.isChain_cons_cons.mpr ⟨hadvances, .singleton last⟩⟩
  | cons agent_id agent_ids ih =>
    obtain ⟨hgood, horigins, hadvances⟩ := hstep clock m agent_id h
    rw [each, List.getLastD_cons] at hlast
    obtain ⟨hgood', horigins', hchain⟩ := ih hgood hlast
    exact ⟨hgood', horigins'.trans horigins, List.isChain_cons_cons.mpr ⟨hadvances, hchain⟩⟩

end several

/-! ## Sessions -/

section events

variable {m : AgentManager} {event : Event}

theorem create_agent_tiers (clock : Clock) (m : AgentManager) (agent_id : Text)
    (request : AgentRequest) : (m.create_agent clock agent_id request).tiers =
      m.tiers.add agent_id (Agent.create clock agent_id request) :=
  send_tiers _

theorem create_agent_spec (clock : Clock) {agent_id : Text} (request : AgentRequest)
    (h : Good m.tiers) (hfresh : m.get_agent agent_id = none) :
    Good (m.create_agent clock agent_id request).tiers ∧
      (∀ id, origins (m.create_agent clock agent_id request).tiers id =
        if id = agent_id then some (Agent.create clock agent_id request).origin
        else origins m.tiers id) ∧
      Advance m (m.create_agent clock agent_id request) := by
  unfold Advance
  rw [create_agent_tiers]
  have hbounded : terminal_count (m.tiers.add agent_id (Agent.create clock agent_id request)) ≤
      MAX_TRACKED_TERMINAL_AGENTS := by
    apply (finished_le ?_).trans h.2
    intro id agent hlive hended
    rw [live_add] at hlive
    split_ifs at hlive
    · obtain rfl := Option.some.inj hlive
      cases hended
    · exact ⟨agent, hlive, hended⟩
  refine ⟨⟨⟨h.1.disjoint.add hfresh _, h.1.archived, ?_, ?_⟩, hbounded⟩, ?_,
    advances_of_archive_eq hbounded rfl⟩
  · intro id agent hfind
    rw [find_add] at hfind
    split_ifs at hfind
    · obtain rfl := Option.some.inj hfind
      rintro ⟨⟩
    · exact h.1.complete id agent hfind
  · intro id agent hfind
    rw [find_add] at hfind
    split_ifs at hfind with hid
    · obtain rfl := Option.some.inj hfind
      exact hid.symm
    · exact h.1.keyed id agent hfind
  · intro id
    unfold origins
    rw [find_add]
    split_ifs
    · rfl
    · rfl

theorem set_event_sender_good (h : Good m.tiers) : Good m.set_event_sender.tiers := by
  have hfind : ∀ id agent, m.set_event_sender.tiers.find id = some agent →
      m.tiers.find id = some agent := by
    intro id agent hfind
    have hlive : m.agents.lookup id = some agent := by
      simpa [Tiers.find, AgentManager.tiers, AgentManager.set_event_sender] using hfind
    simp [Tiers.find, AgentManager.tiers, hlive]
  refine ⟨⟨fun id => .inr (AList.lookup_empty id), ?_, ?_, ?_⟩, h.2⟩
  · intro id agent harchive
    cases (AList.lookup_empty id).symm.trans harchive
  · intro id agent hsome
    exact h.1.complete id agent (hfind id agent hsome)
  · intro id agent hsome
    exact h.1.keyed id agent (hfind id agent hsome)

theorem moments_single (h : Good m.tiers) (hmoves : Moves m (event.run m))
    (hmoments : event.moments m = [event.run m]) :
    Good (event.run m).tiers ∧ origins (event.run m).tiers = origins m.tiers ∧
      List.IsChain Advance (m :: event.moments m) := by
  obtain ⟨hgood, horigins, hadvances⟩ := hmoves h
  rw [hmoments]
  exact ⟨hgood, horigins, List.isChain_cons_cons.mpr ⟨hadvances, .singleton _⟩⟩

theorem watchdog_tiers (order : Order) (clock : Clock) (m : AgentManager) :
    (m.watchdog order clock).tiers =
      (m.time_out_each order (clock 0) (fun n => clock (n + 1))
        (m.timeout_ids order (clock 0))).tiers := by
  unfold AgentManager.watchdog
  dsimp only
  split_ifs with hnone
  · rw [hnone]
    rfl
  · exact send_tiers _

/-- An operation that creates no agent and starts no session. -/
theorem event_spec (h : Good m.tiers) (hcreated : event.created = none)
    (hsession : event.operation ≠ .set_event_sender) :
    Good (event.run m).tiers ∧ origins (event.run m).tiers = origins m.tiers ∧
      List.IsChain Advance (m :: event.moments m) := by
  obtain ⟨operation, clock, order⟩ := event
  cases operation with
  | create_agent agent_id request => cases hcreated
  | set_event_sender => exact absurd rfl hsession
  | update_agent_status agent_id status =>
    exact moments_single h (update_agent_status_moves order clock m agent_id status) rfl
  | update_agent_result agent_id result =>
    exact moments_single h (update_agent_result_moves order clock m agent_id result) rfl
  | add_progress agent_id message =>
    exact moments_single h (add_progress_moves clock m agent_id message) rfl
  | touch_agent agent_id => exact moments_single h (touch_agent_moves clock m agent_id) rfl
  | update_worktree_info agent_id worktree_path branch_name =>
    exact moments_single h (update_worktree_info_moves m agent_id worktree_path branch_name) rfl
  | cancel_agent agent_id =>
    exact moments_single h (cancel_agent_moves order (clock 0) m agent_id) rfl
  | cancel_batch batch_id =>
    exact each_spec (fun clock m agent_id => cancel_agent_moves order (clock 0) m agent_id) h
      (congrArg AgentManager.tiers cancel_each_eq)
  | watchdog =>
    have hlast := (watchdog_tiers order clock m).trans
      (congrArg AgentManager.tiers time_out_each_eq)
    exact each_spec
      (fun activity m agent_id => time_out_moves order (clock 0) (activity 0) m agent_id) h hlast

/-- The agent of an event that creates one is new. -/
def Fresh (m : AgentManager) (event : Event) : Prop :=
  ∀ id, event.created = some id → m.get_agent id = none

theorem origins_eq_none {t : Tiers Text Agent} {id : Text} :
    origins t id = none ↔ t.find id = none := Option.map_eq_none_iff

theorem created_operation {id : Text} (h : event.created = some id) :
    ∃ request, event.operation = .create_agent id request := by
  unfold Event.created at h
  split at h
  · next request hop =>
    obtain rfl := Option.some.inj h
    exact ⟨request, hop⟩
  · cases h

theorem created_spec {agent_id : Text} {request : AgentRequest} (h : Good m.tiers)
    (hfresh : m.get_agent agent_id = none)
    (hop : event.operation = .create_agent agent_id request) :
    Good (event.run m).tiers ∧
      (∀ id, origins (event.run m).tiers id =
        if id = agent_id then some (Agent.create event.clock agent_id request).origin
        else origins m.tiers id) ∧
      List.IsChain Advance (m :: event.moments m) := by
  obtain ⟨operation, clock, order⟩ := event
  obtain rfl : operation = .create_agent agent_id request := hop
  obtain ⟨hgood, horigins, hadvance⟩ := create_agent_spec clock request h hfresh
  exact ⟨hgood, horigins, List.isChain_cons_cons.mpr ⟨hadvance, .singleton _⟩⟩

/-- In a session nothing that is found is lost, and what is created is found. -/
theorem step_session (h : Good m.tiers) (hfresh : Fresh m event)
    (hsession : event.operation ≠ .set_event_sender) :
    (∀ id origin, origins m.tiers id = some origin →
        origins (event.run m).tiers id = some origin) ∧
      (∀ id request, event.operation = .create_agent id request →
        origins (event.run m).tiers id = some (Agent.create event.clock id request).origin) ∧
      List.IsChain Advance (m :: event.moments m) := by
  rcases hcreated : event.created with _ | agent_id
  · obtain ⟨-, horigins, hchain⟩ := event_spec h hcreated hsession
    refine ⟨fun id origin hid => by rw [horigins, hid], fun id request hop => ?_, hchain⟩
    unfold Event.created at hcreated
    rw [hop] at hcreated
    cases hcreated
  · have hnew := hfresh agent_id hcreated
    obtain ⟨request, hop⟩ := created_operation hcreated
    obtain ⟨-, horigins, hchain⟩ := created_spec h hnew hop
    refine ⟨fun id origin hid => ?_, fun id request' hop' => ?_, hchain⟩
    · rw [horigins, if_neg]
      · exact hid
      · rintro rfl
        have hnone : origins m.tiers id = none := origins_eq_none.mpr hnew
        rw [hnone] at hid
        cases hid
    · obtain ⟨rfl, rfl⟩ := Operation.create_agent.inj (hop.symm.trans hop')
      rw [horigins, if_pos rfl]

/-- Any operation keeps the maps good, and only new agents are found afterwards. -/
theorem step_good (h : Good m.tiers) (hfresh : Fresh m event) : Good (event.run m).tiers ∧
    ∀ id, (event.run m).get_agent id ≠ none →
      m.get_agent id ≠ none ∨ event.created = some id := by
  by_cases hsession : event.operation = .set_event_sender
  · obtain ⟨operation, clock, order⟩ := event
    obtain rfl : operation = .set_event_sender := hsession
    refine ⟨set_event_sender_good h, fun id hfound => .inl ?_⟩
    intro hnone
    apply hfound
    have hlive := (Option.or_eq_none_iff.mp hnone).1
    simp [AgentManager.get_agent, Event.run, AgentManager.set_event_sender, hlive]
  · rcases hcreated : event.created with _ | agent_id
    · obtain ⟨hgood, horigins, -⟩ := event_spec h hcreated hsession
      refine ⟨hgood, fun id hfound => .inl fun hnone => hfound ?_⟩
      have hlost : origins m.tiers id = none := origins_eq_none.mpr hnone
      rw [← horigins] at hlost
      exact origins_eq_none.mp hlost
    · obtain ⟨request, hop⟩ := created_operation hcreated
      obtain ⟨hgood, horigins, -⟩ := created_spec h (hfresh agent_id hcreated) hop
      refine ⟨hgood, fun id hfound => ?_⟩
      by_cases hid : id = agent_id
      · exact .inr (by rw [hid])
      · refine .inl fun hnone => hfound ?_
        have hlost : origins m.tiers id = none := origins_eq_none.mpr hnone
        have hsame := horigins id
        rw [if_neg hid] at hsame
        rw [← hsame] at hlost
        exact origins_eq_none.mp hlost

end events

section runs

variable {m : AgentManager} {events : List Event} {seen : List Text}

theorem fresh_of_nodup {event : Event} (hknown : ∀ id, m.get_agent id ≠ none → id ∈ seen)
    (hids : (seen ++ (event :: events).filterMap Event.created).Nodup) : Fresh m event := by
  intro id hcreated
  by_contra hfound
  rw [List.filterMap_cons_some hcreated, List.nodup_append] at hids
  exact hids.2.2 id (hknown id hfound) id (by simp) rfl

theorem created_cons (seen : List Text) (event : Event) (events : List Event) :
    seen ++ (event :: events).filterMap Event.created =
      (seen ++ event.created.toList) ++ events.filterMap Event.created := by
  rcases hcreated : event.created with _ | id
  · simp [hcreated]
  · simp [hcreated]

theorem known_step {m' : AgentManager} {event : Event}
    (hknown : ∀ id, m.get_agent id ≠ none → id ∈ seen)
    (hfound : ∀ id, m'.get_agent id ≠ none → m.get_agent id ≠ none ∨ event.created = some id) :
    ∀ id, m'.get_agent id ≠ none → id ∈ seen ++ event.created.toList := by
  intro id hid
  rcases hfound id hid with hold | hcreated
  · exact List.mem_append_left _ (hknown id hold)
  · simp [hcreated]

theorem run_good (h : Good m.tiers) (hknown : ∀ id, m.get_agent id ≠ none → id ∈ seen)
    (hids : (seen ++ events.filterMap Event.created).Nodup) : Good (m.run events).tiers ∧
      ∀ id, (m.run events).get_agent id ≠ none → id ∈ seen ++ events.filterMap Event.created := by
  induction events generalizing m seen with
  | nil => simpa [AgentManager.run] using ⟨h, hknown⟩
  | cons event events ih =>
    have hfresh := fresh_of_nodup hknown hids
    obtain ⟨hgood, hfound⟩ := step_good h hfresh
    rw [created_cons] at hids ⊢
    exact ih hgood (known_step hknown hfound) hids

/-- What is found in a session stays found, and what is created in it is found at its end. -/
theorem run_session (h : Good m.tiers) (hknown : ∀ id, m.get_agent id ≠ none → id ∈ seen)
    (hids : (seen ++ events.filterMap Event.created).Nodup)
    (hsession : ∀ event ∈ events, event.operation ≠ .set_event_sender) :
    (∀ id origin, origins m.tiers id = some origin →
        origins (m.run events).tiers id = some origin) ∧
      (∀ event ∈ events, ∀ id request, event.operation = .create_agent id request →
        origins (m.run events).tiers id = some (Agent.create event.clock id request).origin) ∧
      ∀ before event after, events = before ++ event :: after →
        List.IsChain Advance (m.run before :: event.moments (m.run before)) := by
  induction events generalizing m seen with
  | nil =>
    refine ⟨fun _ _ hid => hid, by simp, fun before event after hnil => ?_⟩
    simp at hnil
  | cons event events ih =>
    obtain ⟨hfirst, hlater⟩ := List.forall_mem_cons.mp hsession
    have hfresh := fresh_of_nodup hknown hids
    obtain ⟨hgood, hfound⟩ := step_good h hfresh
    obtain ⟨hkept, hcreated, hchain⟩ := step_session h hfresh hfirst
    rw [created_cons] at hids
    obtain ⟨hkept', hcreated', hchain'⟩ := ih hgood (known_step hknown hfound) hids hlater
    refine ⟨fun id origin hid => hkept' id origin (hkept id origin hid), ?_, ?_⟩
    · intro first hmem id request hop
      rcases List.mem_cons.mp hmem with rfl | hmem
      · exact hkept' id _ (hcreated id request hop)
      · exact hcreated' first hmem id request hop
    · intro before first after hevents
      cases before with
      | nil =>
        obtain ⟨rfl, rfl⟩ := List.cons.inj hevents
        exact hchain
      | cons before_first before =>
        obtain ⟨rfl, hrest⟩ := List.cons.inj hevents
        exact hchain' before first after hrest

theorem new_good : Good AgentManager.new.tiers := by
  refine ⟨⟨fun id => .inl (AList.lookup_empty id), ?_, ?_, ?_⟩, Nat.zero_le _⟩
  · intro id agent harchive
    cases (AList.lookup_empty id).symm.trans harchive
  · intro id agent hfind
    cases hfind
  · intro id agent hfind
    cases hfind

theorem active_not_ended {agent : Agent} (h : agent.status.is_active = true) :
    agent.ended = false := by
  unfold Agent.ended
  rcases hstatus : agent.status with _ | _ | _ | _ | _
  · rfl
  · rfl
  · rw [hstatus] at h
    cases h
  · rw [hstatus] at h
    cases h
  · rw [hstatus] at h
    cases h

/-- In a session, whatever came before it: every agent that was live at its start or was created in
it is found, in one of the maps only, and in the live one while it is pending or running. The live
map keeps at most the bound of ended agents, after every agent that ends; those that it gives to
the archive completed no later than those it keeps. -/
theorem agents_kept (earlier events : List Event)
    (hids : ((earlier ++ events).filterMap Event.created).Nodup)
    (hsession : ∀ event ∈ events, event.operation ≠ .set_event_sender) :
    let start := (AgentManager.new.run earlier).set_event_sender
    let m := start.run events
    (∀ id agent, start.get_agent id = some agent →
      ∃ agent', m.get_agent id = some agent' ∧ agent'.origin = agent.origin) ∧
    (∀ event ∈ events, ∀ id request, event.operation = .create_agent id request →
      ∃ agent, m.get_agent id = some agent ∧
        agent.origin = (Agent.create event.clock id request).origin) ∧
    (∀ id, m.agents.lookup id = none ∨ m.archived_terminal_agents.lookup id = none) ∧
    (∀ id agent, m.get_agent id = some agent → agent.status.is_active = true →
      m.agents.lookup id = some agent) ∧
    m.terminal_count ≤ MAX_TRACKED_TERMINAL_AGENTS ∧
    ∀ before event after, events = before ++ event :: after →
      List.IsChain Advance (start.run before :: event.moments (start.run before)) := by
  intro start m
  rw [List.filterMap_append] at hids
  have hnone : ∀ id, AgentManager.new.get_agent id ≠ none → id ∈ ([] : List Text) :=
    fun id hfound => absurd rfl hfound
  have hearlier : ([] ++ earlier.filterMap Event.created).Nodup :=
    List.Nodup.of_append_left hids
  obtain ⟨hnew, hseen⟩ := run_good new_good hnone hearlier
  have hstart : Good start.tiers := set_event_sender_good hnew
  have hknown : ∀ id, start.get_agent id ≠ none → id ∈ earlier.filterMap Event.created := by
    intro id hfound
    apply hseen id
    intro hlost
    apply hfound
    have hlive := (Option.or_eq_none_iff.mp hlost).1
    simp [start, AgentManager.get_agent, AgentManager.set_event_sender, hlive]
  have hgood : Good m.tiers := (run_good hstart hknown hids).1
  obtain ⟨hkept, hcreated, hchain⟩ := run_session hstart hknown hids hsession
  refine ⟨?_, ?_, hgood.1.disjoint, ?_, hgood.2, hchain⟩
  · intro id agent hfound
    have horigin : origins start.tiers id = some agent.origin := congrArg _ hfound
    exact Option.map_eq_some_iff.mp (hkept id _ horigin)
  · intro event hmem id request hop
    exact Option.map_eq_some_iff.mp (hcreated event hmem id request hop)
  · intro id agent hfound hactive
    rcases (find_iff hgood.1.disjoint).mp hfound with hlive | harchived
    · exact hlive
    · have hended := hgood.1.archived id agent harchived
      rw [active_not_ended hactive] at hended
      cases hended

end runs

/-! ## The list of all agents -/

section listed

variable {m : AgentManager} {order : Order} {keep : Agent → Bool} {agents : List Agent}
  {seen : List Text}

theorem collect_filtered_eq (hids : (agents.map Agent.id).Nodup)
    (hseen : ∀ agent ∈ agents, agent.id ∉ seen) :
    AgentManager.collect_filtered keep seen agents = agents.filter keep := by
  induction agents generalizing seen with
  | nil => rfl
  | cons agent agents ih =>
    obtain ⟨hnew, hids⟩ := List.nodup_cons.mp hids
    obtain ⟨hfirst, hrest⟩ := List.forall_mem_cons.mp hseen
    unfold AgentManager.collect_filtered
    rcases hkeep : keep agent with _ | _
    · rw [List.filter_cons_of_neg (by simp [hkeep])]
      exact ih hids hrest
    · rw [List.filter_cons_of_pos hkeep, if_pos (by simp [hfirst])]
      congr 1
      apply ih hids
      intro other hother
      rw [List.mem_cons, not_or]
      refine ⟨fun hid => hnew ?_, hrest other hother⟩
      rw [← hid]
      exact List.mem_map_of_mem hother

theorem mem_iterate {map : AgentMap} {agent : Agent} :
    agent ∈ (order.iterate map.entries).map Sigma.snd ↔ ∃ id, map.lookup id = some agent := by
  simp only [List.mem_map, (order.perm map.entries).mem_iff]
  constructor
  · rintro ⟨⟨id, agent⟩, hmem, rfl⟩
    exact ⟨id, AList.mem_lookup_iff.mpr hmem⟩
  · rintro ⟨id, hlookup⟩
    exact ⟨⟨id, agent⟩, AList.mem_lookup_iff.mp hlookup, rfl⟩

theorem iterate_ids {map : AgentMap}
    (hkeyed : ∀ id agent, map.lookup id = some agent → agent.id = id) :
    (((order.iterate map.entries).map Sigma.snd).map Agent.id).Nodup := by
  have hkeys : ((order.iterate map.entries).map Sigma.snd).map Agent.id =
      (order.iterate map.entries).map Sigma.fst := by
    rw [List.map_map]
    apply List.map_congr_left
    intro e he
    exact hkeyed e.1 e.2 (AList.mem_lookup_iff.mpr ((order.perm map.entries).mem_iff.mp he))
  rw [hkeys]
  exact ((order.perm map.entries).map Sigma.fst).nodup_iff.mpr map.keys_nodup

/-- Without a filter every agent that is found is listed, and no other one, and none twice. -/
theorem list_agents_all (h : Kept m.tiers) (now : DateTime) :
    ((m.list_agents order now none none false).map Agent.id).Nodup ∧
      ∀ agent, agent ∈ m.list_agents order now none none false ↔
        ∃ id, m.get_agent id = some agent := by
  have hfound : ∀ {id agent}, m.get_agent id = some agent ↔ m.agents.lookup id = some agent ∨
      m.archived_terminal_agents.lookup id = some agent := find_iff h.disjoint
  have hids : (((order.iterate m.agents.entries).map Sigma.snd ++
      (order.iterate m.archived_terminal_agents.entries).map Sigma.snd).map Agent.id).Nodup := by
    rw [List.map_append, List.nodup_append]
    refine ⟨iterate_ids fun id agent hlookup => h.keyed id agent (hfound.mpr (.inl hlookup)),
      iterate_ids fun id agent hlookup => h.keyed id agent (hfound.mpr (.inr hlookup)), ?_⟩
    intro id hid id' hid' heq
    obtain ⟨agent, hagent, rfl⟩ := List.mem_map.mp hid
    obtain ⟨agent', hagent', rfl⟩ := List.mem_map.mp hid'
    obtain ⟨key, hkey⟩ := mem_iterate.mp hagent
    obtain ⟨key', hkey'⟩ := mem_iterate.mp hagent'
    have hsame : key = key' := by
      rw [← h.keyed key agent (hfound.mpr (.inl hkey)), heq,
        h.keyed key' agent' (hfound.mpr (.inr hkey'))]
    subst hsame
    rcases h.disjoint key with hnone | hnone
    · cases hnone.symm.trans hkey
    · cases hnone.symm.trans hkey'
  have hlist : m.list_agents order now none none false =
      (order.iterate m.agents.entries).map Sigma.snd ++
        (order.iterate m.archived_terminal_agents.entries).map Sigma.snd := by
    unfold AgentManager.list_agents
    dsimp only
    rw [collect_filtered_eq hids fun _ _ => List.not_mem_nil]
    simp
  rw [hlist]
  refine ⟨hids, fun agent => ?_⟩
  rw [List.mem_append, mem_iterate, mem_iterate]
  simp only [hfound, exists_or]

end listed

/-- Agents are gone through as they are listed. -/
def as_listed : Order := ⟨id, fun _ => .refl _⟩

/-- A session in which one agent fails and the other one is cancelled with its batch. -/
def example_session : List Event :=
  let request batch : AgentRequest :=
    ⟨"model".toList, "task".toList, none, none, [], true, some batch, none, none⟩
  [⟨.create_agent ['a'] (request ['x']), fun n => n, as_listed⟩,
    ⟨.create_agent ['b'] (request ['y']), fun n => 5 + n, as_listed⟩,
    ⟨.update_agent_result ['a'] (.error "no".toList), fun n => 9 + n, as_listed⟩,
    ⟨.cancel_batch ['y'], fun _ => 7, as_listed⟩]

theorem example_session_kept :
    let m := (AgentManager.new.run []).set_event_sender.run example_session
    (∃ agent, m.get_agent ['b'] = some agent ∧ agent.id = ['b']) ∧
      m.terminal_count ≤ MAX_TRACKED_TERMINAL_AGENTS := by
  have hids : (([] ++ example_session).filterMap Event.created).Nodup := by decide
  have hsession : ∀ event ∈ example_session, event.operation ≠ .set_event_sender := by
    simp [example_session]
  obtain ⟨-, hcreated, -, -, hbounded, -⟩ := agents_kept [] example_session hids hsession
  obtain ⟨agent, hfound, horigin⟩ :=
    hcreated (example_session.get ⟨1, by decide⟩) (List.get_mem _ _) ['b'] _ rfl
  exact ⟨⟨agent, hfound, congrArg Prod.fst horigin⟩, hbounded⟩

end Ecode.agent_tool
