-- The manager of the file searches of the composer (tui/src/file_search.rs): the user's queries,
-- the threads that wait to start a search and the threads that search, in any order of their steps.
import Ecode.Runs
import Ecode.Text

namespace Ecode.search_manager

open runs

/-! ## The program -/

/-- A token is the flag that cancels one search. -/
structure ActiveSearch where
  query : Text
  cancellation_token : Nat
  deriving DecidableEq, Repr

structure SearchState where
  latest_query : Text
  is_search_scheduled : Bool
  active_search : Option ActiveSearch
  /-- The debounce threads: about to be spawned, waiting until no search is active, and past
  that. -/
  spawning : Nat
  waiting : Nat
  ready : Nat
  /-- The tokens that are made are numbered. -/
  tokens : Nat
  cancelled : Nat → Bool
  /-- The searches whose thread is about to be spawned, and those whose thread runs. -/
  launching : List ActiveSearch
  running : List ActiveSearch
  /-- The queries that a debounce thread took up, and whether a thread could not be spawned. -/
  started : List Text
  failed : Bool

inductive ManagerAction where
  | on_user_query (query : Text)
  | spawn_debounce (ok : Bool)
  | wait_over
  | start_search
  | spawn_file_search (search : ActiveSearch) (ok : Bool)
  | search_done (search : ActiveSearch)
  deriving DecidableEq, Repr

namespace SearchState

def new : SearchState where
  latest_query := []
  is_search_scheduled := false
  active_search := none
  spawning := 0
  waiting := 0
  ready := 0
  tokens := 0
  cancelled := fun _ => false
  launching := []
  running := []
  started := []
  failed := false

/-- An active search for something else than the beginning of the query is cancelled. -/
def cancel_obsolete (s : SearchState) (query : Text) : SearchState :=
  match s.active_search with
  | some active =>
    if Text.starts_with query active.query then s
    else { s with
      cancelled := Function.update s.cancelled active.cancellation_token true
      active_search := none }
  | none => s

def step (s : SearchState) : ManagerAction → Option SearchState
  | .on_user_query query =>
    if query = s.latest_query then some s
    else
      let s := { s with latest_query := query }.cancel_obsolete query
      if s.is_search_scheduled then some s
      else some { s with is_search_scheduled := true, spawning := s.spawning + 1 }
  | .spawn_debounce ok =>
    if 0 < s.spawning then
      if ok then some { s with spawning := s.spawning - 1, waiting := s.waiting + 1 }
      else some { s with spawning := s.spawning - 1, failed := true }
    else none
  | .wait_over =>
    if 0 < s.waiting ∧ s.active_search = none then
      some { s with waiting := s.waiting - 1, ready := s.ready + 1 }
    else none
  | .start_search =>
    if 0 < s.ready then
      let search : ActiveSearch := ⟨s.latest_query, s.tokens⟩
      some { s with
        ready := s.ready - 1
        tokens := s.tokens + 1
        is_search_scheduled := false
        active_search := some search
        launching := s.launching ++ [search]
        started := s.started ++ [s.latest_query] }
    else none
  | .spawn_file_search search ok =>
    if search ∈ s.launching then
      if ok then
        some { s with
          launching := s.launching.erase search
          running := s.running ++ [search] }
      else some { s with launching := s.launching.erase search, failed := true }
    else none
  | .search_done search =>
    if search ∈ s.running then
      some { s with
        running := s.running.erase search
        active_search := s.active_search.filter fun active =>
          active.cancellation_token != search.cancellation_token }
    else none

/-- The debounce threads that have not taken up a query. -/
def timers (s : SearchState) : Nat := s.spawning + s.waiting + s.ready

/-- The searches that were started and are not over. -/
def in_flight (s : SearchState) : List ActiveSearch := s.launching ++ s.running

end SearchState

/-! ## The invariant -/

variable {s t : SearchState}

structure Managed (s : SearchState) : Prop where
  one_timer : s.timers ≤ 1
  unscheduled : s.is_search_scheduled = false → s.timers = 0
  scheduled : s.failed = false → s.is_search_scheduled = true → s.timers = 1
  ready : 0 < s.ready → s.active_search = none
  known : ∀ r ∈ s.in_flight, r.cancellation_token < s.tokens
  once : (s.in_flight.map ActiveSearch.cancellation_token).Nodup
  fresh : ∀ n, s.tokens ≤ n → s.cancelled n = false
  /-- A search that is neither over nor cancelled is the active one. -/
  live : ∀ r ∈ s.in_flight, s.cancelled r.cancellation_token = false → s.active_search = some r
  active : s.failed = false → ∀ a ∈ s.active_search, a ∈ s.in_flight
  issued : ∀ a ∈ s.active_search, a.cancellation_token < s.tokens
  leads : ∀ a ∈ s.active_search, a.query <+: s.latest_query
  latest : s.is_search_scheduled = false → s.started.getLast?.getD [] = s.latest_query

theorem managed_new : Managed .new where
  one_timer := Nat.zero_le 1
  unscheduled _ := rfl
  scheduled _ h := by cases h
  ready _ := rfl
  known := by simp [SearchState.new, SearchState.in_flight]
  once := List.nodup_nil
  fresh _ _ := rfl
  live := by simp [SearchState.new, SearchState.in_flight]
  active := by simp [SearchState.new]
  issued := by simp [SearchState.new]
  leads := by simp [SearchState.new]
  latest _ := rfl

/-- A query of the user leaves the threads as they are. -/
theorem cancel_obsolete_spec (s : SearchState) (query : Text) :
    ∃ active cancelled, s.cancel_obsolete query =
        { s with active_search := active, cancelled := cancelled } ∧
      ((active = s.active_search ∧ cancelled = s.cancelled ∧
          ∀ a ∈ active, a.query <+: query) ∨
        active = none ∧ ∃ a ∈ s.active_search,
          cancelled = Function.update s.cancelled a.cancellation_token true) := by
  unfold SearchState.cancel_obsolete
  cases hactive : s.active_search with
  | none =>
    refine ⟨none, s.cancelled, ?_, .inl ⟨rfl, rfl, by simp⟩⟩
    dsimp only
    rw [← hactive]
  | some a =>
    dsimp only
    split_ifs with hprefix
    · refine ⟨some a, s.cancelled, by rw [← hactive], .inl ⟨rfl, rfl, ?_⟩⟩
      rintro _ ⟨⟩
      exact List.isPrefixOf_iff_prefix.mp hprefix
    · exact ⟨none, _, rfl, .inr ⟨rfl, a, rfl, rfl⟩⟩

theorem Managed.on_user_query (h : Managed s) {query : Text}
    {active : Option ActiveSearch} {cancelled : Nat → Bool}
    (hactive : (active = s.active_search ∧ cancelled = s.cancelled ∧
        ∀ a ∈ active, a.query <+: query) ∨
      active = none ∧ ∃ a ∈ s.active_search,
        cancelled = Function.update s.cancelled a.cancellation_token true)
    {spawning : Nat}
    (hspawning : s.is_search_scheduled = true ∧ spawning = s.spawning ∨
      s.is_search_scheduled = false ∧ spawning = s.spawning + 1) :
    Managed { s with
      latest_query := query
      active_search := active
      cancelled := cancelled
      is_search_scheduled := true
      spawning := spawning } where
  one_timer := by
    have hone := h.one_timer
    have hzero := h.unscheduled
    unfold SearchState.timers at *
    dsimp only
    rcases hspawning with ⟨-, rfl⟩ | ⟨hfalse, rfl⟩
    · exact hone
    · have hzero := hzero hfalse
      omega
  unscheduled hfalse := by cases hfalse
  scheduled hok _ := by
    have hzero := h.unscheduled
    have hscheduled := h.scheduled hok
    unfold SearchState.timers at *
    dsimp only
    rcases hspawning with ⟨htrue, rfl⟩ | ⟨hfalse, rfl⟩
    · exact hscheduled htrue
    · have hzero := hzero hfalse
      omega
  ready hready := by
    rcases hactive with ⟨rfl, -, -⟩ | ⟨rfl, -⟩
    · exact h.ready hready
    · rfl
  known := h.known
  once := h.once
  fresh n hn := by
    rcases hactive with ⟨-, rfl, -⟩ | ⟨-, a, ha, rfl⟩
    · exact h.fresh n hn
    · have hne : n ≠ a.cancellation_token := fun heq => by
        have hissued := h.issued a ha
        dsimp only at hn
        omega
      dsimp only
      rw [Function.update_of_ne hne]
      exact h.fresh n hn
  live r hr hlive := by
    rcases hactive with ⟨rfl, rfl, -⟩ | ⟨rfl, a, ha, rfl⟩
    · exact h.live r hr hlive
    · exfalso
      dsimp only at hlive
      by_cases htoken : r.cancellation_token = a.cancellation_token
      · rw [htoken, Function.update_self] at hlive
        cases hlive
      · rw [Function.update_of_ne htoken] at hlive
        have hsame := h.live r hr hlive
        rw [ha] at hsame
        obtain rfl := Option.some.inj hsame
        exact htoken rfl
  active hok a ha := by
    rcases hactive with ⟨rfl, -, -⟩ | ⟨rfl, -⟩
    · exact h.active hok a ha
    · cases ha
  issued a ha := by
    rcases hactive with ⟨rfl, -, -⟩ | ⟨rfl, -⟩
    · exact h.issued a ha
    · cases ha
  leads a ha := by
    rcases hactive with ⟨-, -, hleads⟩ | ⟨rfl, -⟩
    · exact hleads a ha
    · cases ha
  latest hfalse := by cases hfalse

theorem Managed.start_search (h : Managed s) (hready : 0 < s.ready) :
    Managed { s with
      ready := s.ready - 1
      tokens := s.tokens + 1
      is_search_scheduled := false
      active_search := some ⟨s.latest_query, s.tokens⟩
      launching := s.launching ++ [⟨s.latest_query, s.tokens⟩]
      started := s.started ++ [s.latest_query] } where
  one_timer := by
    have hone := h.one_timer
    unfold SearchState.timers at *
    dsimp only
    omega
  unscheduled _ := by
    have hone := h.one_timer
    unfold SearchState.timers at *
    dsimp only
    omega
  scheduled _ htrue := by cases htrue
  ready hready' := by
    have hone := h.one_timer
    unfold SearchState.timers at hone
    dsimp only at hready'
    omega
  known r hr := by
    have hr' : r = ⟨s.latest_query, s.tokens⟩ ∨ r ∈ s.in_flight := by
      simpa [SearchState.in_flight, or_comm, or_assoc] using hr
    rcases hr' with rfl | hr'
    · exact Nat.lt_succ_self _
    · exact (h.known r hr').trans (Nat.lt_succ_self _)
  once := by
    have hperm : ((s.launching ++ [⟨s.latest_query, s.tokens⟩] ++ s.running : List ActiveSearch).map
        ActiveSearch.cancellation_token).Perm
        (s.tokens :: s.in_flight.map ActiveSearch.cancellation_token) := by
      have hmiddle : (s.launching ++ [⟨s.latest_query, s.tokens⟩] ++ s.running : List ActiveSearch).Perm
          (⟨s.latest_query, s.tokens⟩ :: s.in_flight) := by
        rw [List.append_assoc]
        exact List.perm_middle
      exact hmiddle.map ActiveSearch.cancellation_token
    refine hperm.nodup_iff.mpr (List.nodup_cons.mpr ⟨fun hmem => ?_, h.once⟩)
    obtain ⟨r, hr, hrt⟩ := List.mem_map.mp hmem
    exact absurd hrt (h.known r hr).ne
  fresh n hn := h.fresh n ((Nat.le_succ _).trans hn)
  live r hr hlive := by
    have hr' : r = ⟨s.latest_query, s.tokens⟩ ∨ r ∈ s.in_flight := by
      simpa [SearchState.in_flight, or_comm, or_assoc] using hr
    rcases hr' with rfl | hr'
    · rfl
    · have hactive := h.live r hr' hlive
      rw [h.ready hready] at hactive
      cases hactive
  active _ a ha := by
    obtain rfl := Option.some.inj ha
    simp [SearchState.in_flight]
  issued a ha := by
    obtain rfl := Option.some.inj ha
    exact Nat.lt_succ_self _
  leads a ha := by
    obtain rfl := Option.some.inj ha
    exact List.prefix_refl _
  latest _ := by simp

/-- The threads of the searches change, and nothing else. -/
theorem Managed.flight (h : Managed s) {launching running : List ActiveSearch} {failed : Bool}
    (hsub : (launching ++ running).Subperm s.in_flight) (hfailed : failed = false → s.failed = false)
    (hall : failed = false → s.in_flight ⊆ launching ++ running) :
    Managed { s with launching := launching, running := running, failed := failed } where
  one_timer := h.one_timer
  unscheduled := h.unscheduled
  scheduled hok := h.scheduled (hfailed hok)
  ready := h.ready
  known r hr := h.known r (hsub.subset hr)
  once := by
    obtain ⟨l, hperm, hsublist⟩ := hsub
    exact (hperm.map ActiveSearch.cancellation_token).nodup_iff.mp
      (h.once.sublist (hsublist.map ActiveSearch.cancellation_token))
  fresh := h.fresh
  live r hr hlive := h.live r (hsub.subset hr) hlive
  active hok a ha := hall hok (h.active (hfailed hok) a ha)
  issued := h.issued
  leads := h.leads
  latest := h.latest

theorem Managed.search_done (h : Managed s) {search : ActiveSearch} (hmem : search ∈ s.running) :
    Managed { s with
      running := s.running.erase search
      active_search := s.active_search.filter fun active =>
        active.cancellation_token != search.cancellation_token } := by
  have hperm : s.in_flight.Perm (search :: (s.launching ++ s.running.erase search)) := by
    unfold SearchState.in_flight
    exact ((List.perm_cons_erase hmem).append_left _).trans List.perm_middle
  have honce := (hperm.map ActiveSearch.cancellation_token).nodup_iff.mp h.once
  obtain ⟨hout, hrest⟩ := List.nodup_cons.mp honce
  have hmem_rest : ∀ r ∈ s.launching ++ s.running.erase search, r ∈ s.in_flight :=
    fun r hr => hperm.mem_iff.mpr (List.mem_cons_of_mem search hr)
  exact {
    one_timer := h.one_timer
    unscheduled := h.unscheduled
    scheduled := h.scheduled
    ready := fun hready => by
      dsimp only
      rw [h.ready hready]
      rfl
    known := fun r hr => h.known r (hmem_rest r hr)
    once := hrest
    fresh := h.fresh
    live := fun r hr hlive => by
      refine Option.filter_eq_some_iff.mpr ⟨h.live r (hmem_rest r hr) hlive, ?_⟩
      refine bne_iff_ne.mpr fun heq => hout ?_
      rw [← heq]
      exact List.mem_map_of_mem hr
    active := fun hok a ha => by
      obtain ⟨ha, hne⟩ := Option.filter_eq_some_iff.mp ha
      refine (List.mem_cons.mp (hperm.mem_iff.mp (h.active hok a ha))).resolve_left ?_
      rintro rfl
      exact absurd rfl (bne_iff_ne.mp hne)
    issued := fun a ha => h.issued a (Option.filter_eq_some_iff.mp ha).1
    leads := fun a ha => h.leads a (Option.filter_eq_some_iff.mp ha).1
    latest := h.latest }

/-- The debounce threads go on, and nothing else changes. -/
theorem Managed.timer (h : Managed s) {spawning waiting ready : Nat} {failed : Bool}
    (hle : spawning + waiting + ready ≤ s.timers) (hfailed : failed = false → s.failed = false)
    (hkept : failed = false → spawning + waiting + ready = s.timers)
    (hready : 0 < ready → s.active_search = none) :
    Managed { s with
      spawning := spawning, waiting := waiting, ready := ready, failed := failed } where
  one_timer := hle.trans h.one_timer
  unscheduled hfalse := Nat.le_zero.mp (hle.trans (h.unscheduled hfalse).le)
  scheduled hok htrue := (hkept hok).trans (h.scheduled (hfailed hok) htrue)
  ready := hready
  known := h.known
  once := h.once
  fresh := h.fresh
  live := h.live
  active hok := h.active (hfailed hok)
  issued := h.issued
  leads := h.leads
  latest := h.latest

theorem Managed.step (h : Managed s) {a : ManagerAction} (hstep : s.step a = some t) :
    Managed t := by
  cases a with
  | on_user_query query =>
    obtain ⟨active, cancelled, heq, hactive⟩ :=
      cancel_obsolete_spec { s with latest_query := query } query
    simp only [SearchState.step] at hstep
    rw [heq] at hstep
    split_ifs at hstep with hsame hscheduled
    · obtain rfl := Option.some.inj hstep
      exact h
    · obtain rfl := Option.some.inj hstep
      have hnext := h.on_user_query hactive (.inl ⟨hscheduled, rfl⟩)
      rwa [← hscheduled] at hnext
    · obtain rfl := Option.some.inj hstep
      exact h.on_user_query hactive (.inr ⟨by simpa using hscheduled, rfl⟩)
  | spawn_debounce ok =>
    obtain ⟨hpos, hstep⟩ := Option.ite_none_right_eq_some.mp hstep
    split_ifs at hstep
    · obtain rfl := Option.some.inj hstep
      have hsame : s.spawning - 1 + (s.waiting + 1) + s.ready = s.timers := by
        unfold SearchState.timers
        omega
      exact h.timer hsame.le id (fun _ => hsame) h.ready
    · obtain rfl := Option.some.inj hstep
      refine h.timer ?_ (fun hok => by cases hok) (fun hok => by cases hok) h.ready
      unfold SearchState.timers
      omega
  | wait_over =>
    obtain ⟨⟨hpos, hnone⟩, hstep⟩ := Option.ite_none_right_eq_some.mp hstep
    obtain rfl := Option.some.inj hstep
    have hsame : s.spawning + (s.waiting - 1) + (s.ready + 1) = s.timers := by
      unfold SearchState.timers
      omega
    exact h.timer hsame.le id (fun _ => hsame) fun _ => hnone
  | start_search =>
    obtain ⟨hpos, hstep⟩ := Option.ite_none_right_eq_some.mp hstep
    obtain rfl := Option.some.inj hstep
    exact h.start_search hpos
  | spawn_file_search search ok =>
    obtain ⟨hmem, hstep⟩ := Option.ite_none_right_eq_some.mp hstep
    split_ifs at hstep
    · obtain rfl := Option.some.inj hstep
      have hperm : (s.launching.erase search ++ (s.running ++ [search])).Perm s.in_flight := by
        unfold SearchState.in_flight
        rw [← List.append_assoc]
        refine (List.perm_append_singleton search _).trans ?_
        exact (List.perm_cons_erase hmem).symm.append_right s.running
      exact h.flight hperm.subperm id fun _ => hperm.symm.subset
    · obtain rfl := Option.some.inj hstep
      refine h.flight ?_ (fun hok => by cases hok) (fun hok => by cases hok)
      exact (List.erase_sublist.append (List.Sublist.refl _)).subperm
  | search_done search =>
    obtain ⟨hmem, hstep⟩ := Option.ite_none_right_eq_some.mp hstep
    obtain rfl := Option.some.inj hstep
    exact h.search_done hmem

theorem managed_run {actions : List ManagerAction}
    (hrun : actions.foldlM SearchState.step .new = some s) : Managed s :=
  run_invariant (fun _ _ _ hs hstep => Managed.step hs hstep) managed_new hrun

/-! ## A search for the latest query -/

def ManagerAction.by_user : ManagerAction → Bool
  | .on_user_query _ => true
  | _ => false

/-- The threads can go on to where the last search that was started is for this query. -/
def CanSearch (s : SearchState) (query : Text) : Prop :=
  ∃ (more : List ManagerAction) (t : SearchState), more.foldlM SearchState.step s = some t ∧
    (∀ a ∈ more, a.by_user = false) ∧ t.latest_query = query ∧
    t.is_search_scheduled = false ∧ t.started.getLast?.getD [] = query

theorem CanSearch.step {query : Text} {a : ManagerAction} (ha : a.by_user = false)
    (hstep : s.step a = some t) (h : CanSearch t query) : CanSearch s query := by
  obtain ⟨more, u, hrun, hmore, hu⟩ := h
  refine ⟨a :: more, u, ?_, ?_, hu⟩
  · rw [List.foldlM_cons, hstep]
    exact hrun
  · rintro b (_ | ⟨_, hb⟩)
    · exact ha
    · exact hmore b hb

theorem can_search_ready (hready : 0 < s.ready) : CanSearch s s.latest_query := by
  have hstep : s.step .start_search = some { s with
      ready := s.ready - 1
      tokens := s.tokens + 1
      is_search_scheduled := false
      active_search := some ⟨s.latest_query, s.tokens⟩
      launching := s.launching ++ [⟨s.latest_query, s.tokens⟩]
      started := s.started ++ [s.latest_query] } :=
    if_pos hready
  exact CanSearch.step rfl hstep ⟨[], _, rfl, by simp, rfl, rfl, by simp⟩

theorem can_search_waiting (hwaiting : 0 < s.waiting) (hnone : s.active_search = none) :
    CanSearch s s.latest_query := by
  have hstep : s.step .wait_over =
      some { s with waiting := s.waiting - 1, ready := s.ready + 1 } :=
    if_pos ⟨hwaiting, hnone⟩
  exact (can_search_ready (Nat.succ_pos _)).step rfl hstep

/-- A search that runs comes to its end, and then no search is active. -/
theorem can_search_running (hwaiting : 0 < s.waiting) {a : ActiveSearch}
    (ha : s.active_search = some a) (hrunning : a ∈ s.running) : CanSearch s s.latest_query := by
  have hstep : s.step (.search_done a) = some { s with
      running := s.running.erase a
      active_search := s.active_search.filter fun active =>
        active.cancellation_token != a.cancellation_token } :=
    if_pos hrunning
  refine CanSearch.step rfl hstep ?_
  exact can_search_waiting (s := { s with
      running := s.running.erase a
      active_search := s.active_search.filter fun active =>
        active.cancellation_token != a.cancellation_token }) hwaiting (by simp [ha])

theorem Managed.can_search_waiting (h : Managed s) (hok : s.failed = false)
    (hwaiting : 0 < s.waiting) : CanSearch s s.latest_query := by
  cases ha : s.active_search with
  | none => exact search_manager.can_search_waiting hwaiting ha
  | some a =>
    rcases List.mem_append.mp (h.active hok a ha) with hlaunching | hrunning
    · have hstep : s.step (.spawn_file_search a true) = some { s with
          launching := s.launching.erase a
          running := s.running ++ [a] } :=
        if_pos hlaunching
      refine CanSearch.step rfl hstep ?_
      exact can_search_running (s := { s with
          launching := s.launching.erase a
          running := s.running ++ [a] }) hwaiting ha
        (List.mem_append_right _ (List.mem_singleton_self a))
    · exact can_search_running hwaiting ha hrunning

theorem Managed.can_search (h : Managed s) (hok : s.failed = false) :
    CanSearch s s.latest_query := by
  cases hscheduled : s.is_search_scheduled with
  | false => exact ⟨[], s, rfl, by simp, rfl, hscheduled, h.latest hscheduled⟩
  | true =>
    have hone := h.scheduled hok hscheduled
    unfold SearchState.timers at hone
    by_cases hready : 0 < s.ready
    · exact can_search_ready hready
    · by_cases hwaiting : 0 < s.waiting
      · exact h.can_search_waiting hok hwaiting
      · have hspawning : 0 < s.spawning := by omega
        have hstep : s.step (.spawn_debounce true) =
            some { s with spawning := s.spawning - 1, waiting := s.waiting + 1 } :=
          if_pos hspawning
        refine CanSearch.step rfl hstep ?_
        exact (h.step hstep).can_search_waiting hok (Nat.succ_pos _)

end Ecode.search_manager

namespace Ecode

open search_manager

/-- In any run of the manager's threads there is one debounce thread and one search in flight that
is not cancelled, at most; an active search is for a beginning of the latest query; and when no
search is scheduled, the last one that was started is for the latest query. -/
theorem one_search_at_a_time (actions : List ManagerAction) (s : SearchState)
    (hrun : actions.foldlM SearchState.step .new = some s) :
    s.timers ≤ 1 ∧
      (∀ r ∈ s.in_flight, ∀ r' ∈ s.in_flight, s.cancelled r.cancellation_token = false →
        s.cancelled r'.cancellation_token = false → r = r') ∧
      (s.in_flight.map ActiveSearch.cancellation_token).Nodup ∧
      (∀ a ∈ s.active_search, a.query <+: s.latest_query) ∧
      (s.is_search_scheduled = false → s.started.getLast?.getD [] = s.latest_query) := by
  have h := managed_run hrun
  refine ⟨h.one_timer, fun r hr r' hr' hlive hlive' => ?_, h.once, h.leads, h.latest⟩
  exact Option.some.inj ((h.live r hr hlive).symm.trans (h.live r' hr' hlive'))

/-- A query is not lost: as long as threads could be spawned, the threads can at any time go on,
without the user, to where a search for the latest query was started. -/
theorem latest_query_is_searched (actions : List ManagerAction) (s : SearchState)
    (hrun : actions.foldlM SearchState.step .new = some s) (hok : s.failed = false) :
    ∃ (more : List ManagerAction) (t : SearchState), more.foldlM SearchState.step s = some t ∧
      (∀ a ∈ more, a.by_user = false) ∧
      t.latest_query = s.latest_query ∧ t.is_search_scheduled = false ∧
      t.started.getLast?.getD [] = s.latest_query :=
  (managed_run hrun).can_search hok

/-- The user goes on typing, and then goes back. -/
def typing : List ManagerAction :=
  [.on_user_query "a".toList, .spawn_debounce true, .wait_over, .start_search,
    .on_user_query "ab".toList, .spawn_file_search ⟨"a".toList, 0⟩ true, .spawn_debounce true,
    .on_user_query "b".toList, .wait_over]

theorem typing_one_search :
    ∃ s, typing.foldlM SearchState.step .new = some s ∧ s.cancelled 0 = true ∧
      s.active_search = none ∧ s.timers ≤ 1 := by
  obtain ⟨s, hs⟩ : ∃ s, typing.foldlM SearchState.step .new = some s := ⟨_, rfl⟩
  refine ⟨s, hs, ?_, ?_, (one_search_at_a_time typing s hs).1⟩
  · obtain rfl := Option.some.inj hs
    rfl
  · obtain rfl := Option.some.inj hs
    rfl

theorem typing_is_searched :
    ∃ (s : SearchState) (more : List ManagerAction) (t : SearchState),
      typing.foldlM SearchState.step .new = some s ∧
      more.foldlM SearchState.step s = some t ∧ t.started.getLast?.getD [] = "b".toList := by
  obtain ⟨s, hs⟩ : ∃ s, typing.foldlM SearchState.step .new = some s := ⟨_, rfl⟩
  obtain ⟨more, t, hmore, -, -, -, hstarted⟩ := latest_query_is_searched typing s hs
    (by obtain rfl := Option.some.inj hs; rfl)
  refine ⟨s, more, t, hs, hmore, hstarted.trans ?_⟩
  obtain rfl := Option.some.inj hs
  rfl

end Ecode
