-- The timeline of the environment (core/src/context_timeline/timeline.rs) and the
-- session that feeds it what the tracker emits (core/src/codex/session.rs).
import Ecode.EnvironmentContext
import Ecode.Registry

namespace Ecode.environment

open registry

/-! ## The timeline -/

inductive TimelineError where
  | BaselineAlreadySet
  | BaselineNotSet
  | DeltaSequenceOutOfOrder (expected actual : Nat)
  | SnapshotAlreadyExists (fingerprint : Text)
  | DeltaNotFound (sequence : Nat)
  | SnapshotNotFound (fingerprint : Text)
  deriving DecidableEq, Repr

structure DeltaEntry where
  sequence : Nat
  delta : EnvironmentContextDelta
  recorded_at : Text

structure SnapshotEntry where
  fingerprint : Text
  snapshot : EnvironmentContextSnapshot
  recorded_at : Text

/-- `ContextTimeline`, with the deltas in the order of their keys. -/
structure ContextTimeline where
  baseline : Option EnvironmentContextSnapshot
  deltas : List (Nat × DeltaEntry)
  snapshots : Lookup Text SnapshotEntry
  next_sequence : Nat

namespace ContextTimeline

def new : ContextTimeline := ⟨none, [], ∅, 1⟩

/-- `BTreeMap::insert`. -/
def insert_ordered {α : Type} (key : Nat) (value : α) : List (Nat × α) → List (Nat × α)
  | [] => [(key, value)]
  | (k, v) :: rest =>
    if key < k then (key, value) :: (k, v) :: rest
    else if key = k then (key, value) :: rest
    else (k, v) :: insert_ordered key value rest

def add_baseline_once (t : ContextTimeline) (snapshot : EnvironmentContextSnapshot) :
    Except TimelineError ContextTimeline :=
  if t.baseline.isSome then .error .BaselineAlreadySet
  else .ok { t with baseline := some snapshot }

/-- `apply_delta`. `now` is the time that the entry is given. -/
def apply_delta (now : Text) (t : ContextTimeline) (sequence : Nat)
    (delta : EnvironmentContextDelta) : Except TimelineError ContextTimeline :=
  if t.baseline.isNone then .error .BaselineNotSet
  else if sequence ≠ t.next_sequence then
    .error (.DeltaSequenceOutOfOrder t.next_sequence sequence)
  else .ok { t with
    deltas := insert_ordered sequence ⟨sequence, delta, now⟩ t.deltas
    next_sequence := t.next_sequence + 1 }

/-- `record_snapshot`: the timeline, and whether the snapshot is a new one. -/
def record_snapshot (sha1_hex : Text → Text) (now : Text) (t : ContextTimeline)
    (snapshot : EnvironmentContextSnapshot) : ContextTimeline × Bool :=
  let fingerprint := snapshot.fingerprint sha1_hex
  if (t.snapshots.lookup fingerprint).isSome then (t, false)
  else ({ t with snapshots := t.snapshots.insert fingerprint ⟨fingerprint, snapshot, now⟩ }, true)

/-- What the timeline stands for: its baseline with its deltas applied in their order. -/
def replay (t : ContextTimeline) : Option EnvironmentContextSnapshot :=
  t.baseline.map fun baseline =>
    t.deltas.foldl (fun snapshot entry => snapshot.apply_delta entry.2.delta) baseline

end ContextTimeline

/-! ## The session -/

/-- The part of the state of a session that follows the environment. -/
structure ContextState where
  environment_context_tracker : EnvironmentContextTracker
  context_timeline : ContextTimeline
  last_environment_snapshot : Option EnvironmentContextSnapshot

def ContextState.new : ContextState := ⟨.new, .new, none⟩

/-- A result that is only logged when it is an error. -/
def ContextTimeline.logged (t : ContextTimeline) (result : Except TimelineError ContextTimeline) :
    ContextTimeline :=
  match result with
  | .ok t => t
  | .error _ => t

section session

variable (sha1_hex : Text → Text) (now : Text)

/-- What the session does to its timeline for an emission. -/
def ContextTimeline.take_emission (t : ContextTimeline) :
    EnvironmentContextEmission → ContextTimeline
  | .Full _ snapshot =>
    let t := t.logged (t.add_baseline_once snapshot)
    (t.record_snapshot sha1_hex now snapshot).1
  | .Delta sequence snapshot delta =>
    let t := if t.baseline.isNone then t.logged (t.add_baseline_once snapshot) else t
    let t := t.logged (t.apply_delta now sequence delta)
    (t.record_snapshot sha1_hex now snapshot).1

/-- `maybe_emit_env_ctx_messages` with versioning on. -/
def ContextState.maybe_emit_env_ctx_messages (state : ContextState)
    (snapshot : EnvironmentContextSnapshot) : ContextState :=
  match state.environment_context_tracker.observe sha1_hex snapshot with
  | (tracker, some emission) =>
    ⟨tracker, state.context_timeline.take_emission sha1_hex now emission, some emission.snapshot⟩
  | (tracker, none) => { state with environment_context_tracker := tracker }

/-! ## The sequences of the tracker -/

/-- After its first snapshot a tracker emits deltas, with sequences past its counter. -/
theorem emissions_are_deltas {t : EnvironmentContextTracker}
    {previous : EnvironmentContextSnapshot} (ht : t.last_snapshot = some previous)
    (observed : List EnvironmentContextSnapshot) :
    ∀ emission ∈ t.emissions sha1_hex observed, ∃ sequence snapshot delta,
      emission = .Delta sequence snapshot delta ∧ t.next_sequence < sequence := by
  induction observed generalizing t previous with
  | nil =>
    intro emission hemission
    cases hemission
  | cons snapshot rest ih =>
    intro emission hemission
    simp only [EnvironmentContextTracker.emissions, EnvironmentContextTracker.observe, ht]
      at hemission
    split at hemission
    · exact ih ht emission (by simpa using hemission)
    · rcases List.mem_append.mp hemission with hfirst | hrest
      · obtain rfl := List.mem_singleton.mp hfirst
        exact ⟨_, _, _, rfl, Nat.lt_succ_self _⟩
      · obtain ⟨sequence, s, d, rfl, hlt⟩ := ih rfl emission hrest
        exact ⟨sequence, s, d, rfl, Nat.lt_of_succ_lt hlt⟩

/-- A tracker emits nothing more exactly when every snapshot has the fingerprint of its last. -/
theorem emissions_nil_iff {t : EnvironmentContextTracker} {previous : EnvironmentContextSnapshot}
    (ht : t.last_snapshot = some previous) (observed : List EnvironmentContextSnapshot) :
    t.emissions sha1_hex observed = [] ↔
      ∀ snapshot ∈ observed, snapshot.fingerprint sha1_hex = previous.fingerprint sha1_hex := by
  induction observed with
  | nil => simp [EnvironmentContextTracker.emissions]
  | cons snapshot rest ih =>
    simp only [EnvironmentContextTracker.emissions, EnvironmentContextTracker.observe, ht]
    split
    · rename_i heq
      simp [ih, heq]
    · rename_i hne
      simp [hne]

/-! ## The emissions against the timeline -/

/-- The deltas of the emissions, fed to a timeline in order; it stops at the first that is not
accepted. -/
def feed (t : ContextTimeline) : List EnvironmentContextEmission →
    Except TimelineError ContextTimeline
  | [] => .ok t
  | .Full _ _ :: rest => feed t rest
  | .Delta sequence _ delta :: rest => do
    let t ← t.apply_delta now sequence delta
    feed t rest

/-- Every delta that a tracker emits after its baseline is accepted by a timeline that holds the
baseline, and the timeline then stands for the last snapshot that was emitted. -/
def emissions_replay (observed : List EnvironmentContextSnapshot) : Prop :=
  match EnvironmentContextTracker.new.emissions sha1_hex observed with
  | [] => True
  | .Full sequence baseline :: later => ∃ seeded fed,
      ContextTimeline.new.add_baseline_once baseline = .ok seeded ∧
      feed now seeded later = .ok fed ∧
      fed.replay =
        ((.Full sequence baseline :: later).getLast?).map EnvironmentContextEmission.snapshot
  | .Delta .. :: _ => False

/-- A timeline that has only its baseline accepts no delta with a sequence past 1. -/
theorem feed_rejects {t : ContextTimeline} (ht : t.next_sequence = 1)
    {later : List EnvironmentContextEmission} (hne : later ≠ [])
    (hlater : ∀ emission ∈ later, ∃ sequence snapshot delta,
      emission = .Delta sequence snapshot delta ∧ 1 < sequence) (fed : ContextTimeline) :
    feed now t later ≠ .ok fed := by
  obtain ⟨emission, rest, rfl⟩ := List.exists_cons_of_ne_nil hne
  obtain ⟨sequence, snapshot, delta, rfl, hlt⟩ := hlater emission List.mem_cons_self
  have hsequence : sequence ≠ t.next_sequence := by omega
  obtain ⟨error, herror⟩ : ∃ error, t.apply_delta now sequence delta = .error error := by
    unfold ContextTimeline.apply_delta
    rw [if_pos hsequence]
    split <;> exact ⟨_, rfl⟩
  intro hfed
  unfold feed at hfed
  rw [herror] at hfed
  cases hfed

/-- The emissions of a tracker can be replayed exactly when it emits no delta: the tracker counts
its baseline and the timeline does not, so every delta comes one sequence too late. -/
theorem emissions_replay_iff (observed : List EnvironmentContextSnapshot) :
    emissions_replay sha1_hex now observed ↔
      ∀ first ∈ observed.head?, ∀ snapshot ∈ observed,
        snapshot.fingerprint sha1_hex = first.fingerprint sha1_hex := by
  cases observed with
  | nil => simp [emissions_replay, EnvironmentContextTracker.emissions]
  | cons first rest =>
    have hemissions : EnvironmentContextTracker.new.emissions sha1_hex (first :: rest) =
        .Full 1 first :: EnvironmentContextTracker.emissions sha1_hex ⟨1, some first⟩ rest := rfl
    have hseeded : ContextTimeline.new.add_baseline_once first =
        .ok { ContextTimeline.new with baseline := some first } := rfl
    have hquiet := emissions_nil_iff sha1_hex (t := ⟨1, some first⟩) rfl rest
    simp only [emissions_replay, hemissions, hseeded, List.head?_cons, Option.mem_def,
      Option.some.injEq, forall_eq', List.mem_cons, forall_eq_or_imp, true_and]
    rw [← hquiet]
    constructor
    · rintro ⟨seeded, fed, hok, hfed, _⟩
      obtain rfl := Except.ok.inj hok
      by_contra hne
      exact feed_rejects now rfl hne
        (emissions_are_deltas sha1_hex (t := ⟨1, some first⟩) rfl rest) fed hfed
    · intro hnone
      rw [hnone]
      exact ⟨_, _, rfl, rfl, rfl⟩

/-- Two snapshots with different directories: the delta has sequence 2 and is not accepted. -/
theorem changed_cwd_is_not_replayed :
    ¬ ∀ (sha1_hex : Text → Text) (now : Text) (observed : List EnvironmentContextSnapshot),
      emissions_replay sha1_hex now observed := by
  intro hall
  -- any hash that tells the two texts apart will do
  obtain ⟨seeded, fed, hseeded, hfed, _⟩ := hall id []
    [⟨1, some "/a".toList, none, none, none, [], none, [], none, none, none⟩,
      ⟨1, some "/b".toList, none, none, none, [], none, [], none, none, none⟩]
  cases hseeded
  cases hfed

/-! ## The timeline of a session -/

/-- Before the first snapshot nothing is counted; after it the tracker is past 1, the timeline
holds a baseline and still waits for the delta with sequence 1. -/
def Lagging (state : ContextState) : Prop :=
  state.context_timeline.next_sequence = 1 ∧ state.context_timeline.deltas = [] ∧
  (state.environment_context_tracker.last_snapshot = none ∨
    1 ≤ state.environment_context_tracker.next_sequence)

theorem record_snapshot_keeps (t : ContextTimeline) (snapshot : EnvironmentContextSnapshot) :
    (t.record_snapshot sha1_hex now snapshot).1.next_sequence = t.next_sequence ∧
    (t.record_snapshot sha1_hex now snapshot).1.deltas = t.deltas := by
  unfold ContextTimeline.record_snapshot
  dsimp only
  split <;> exact ⟨rfl, rfl⟩

theorem logged_baseline_keeps (t : ContextTimeline) (snapshot : EnvironmentContextSnapshot) :
    (t.logged (t.add_baseline_once snapshot)).next_sequence = t.next_sequence ∧
    (t.logged (t.add_baseline_once snapshot)).deltas = t.deltas := by
  unfold ContextTimeline.add_baseline_once
  split <;> exact ⟨rfl, rfl⟩

/-- A delta with another sequence than the expected one changes nothing. -/
theorem logged_delta_out_of_order {t : ContextTimeline} {sequence : Nat}
    (h : sequence ≠ t.next_sequence) (delta : EnvironmentContextDelta) :
    t.logged (t.apply_delta now sequence delta) = t := by
  unfold ContextTimeline.apply_delta
  rw [if_pos h]
  split <;> rfl

theorem take_emission_keeps {t : ContextTimeline} (ht : t.next_sequence = 1)
    (emission : EnvironmentContextEmission)
    (hemission : ∀ sequence snapshot delta, emission = .Delta sequence snapshot delta →
      sequence ≠ 1) :
    (t.take_emission sha1_hex now emission).next_sequence = 1 ∧
    (t.take_emission sha1_hex now emission).deltas = t.deltas := by
  cases emission with
  | Full sequence snapshot =>
    obtain ⟨hnext, hdeltas⟩ := record_snapshot_keeps sha1_hex now
      (t.logged (t.add_baseline_once snapshot)) snapshot
    obtain ⟨hnext', hdeltas'⟩ := logged_baseline_keeps t snapshot
    exact ⟨hnext.trans (hnext'.trans ht), hdeltas.trans hdeltas'⟩
  | Delta sequence snapshot delta =>
    have hseq : sequence ≠ 1 := hemission _ _ _ rfl
    unfold ContextTimeline.take_emission
    dsimp only
    split
    · obtain ⟨hnext', hdeltas'⟩ := logged_baseline_keeps t snapshot
      rw [logged_delta_out_of_order now (by rw [hnext', ht]; exact hseq)]
      obtain ⟨hnext, hdeltas⟩ := record_snapshot_keeps sha1_hex now
        (t.logged (t.add_baseline_once snapshot)) snapshot
      exact ⟨hnext.trans (hnext'.trans ht), hdeltas.trans hdeltas'⟩
    · rw [logged_delta_out_of_order now (by rw [ht]; exact hseq)]
      obtain ⟨hnext, hdeltas⟩ := record_snapshot_keeps sha1_hex now t snapshot
      exact ⟨hnext.trans ht, hdeltas⟩

theorem maybe_emit_lagging {state : ContextState} (h : Lagging state)
    (snapshot : EnvironmentContextSnapshot) :
    Lagging (state.maybe_emit_env_ctx_messages sha1_hex now snapshot) := by
  obtain ⟨hnext, hdeltas, htracker⟩ := h
  unfold ContextState.maybe_emit_env_ctx_messages EnvironmentContextTracker.observe
  rcases hlast : state.environment_context_tracker.last_snapshot with _ | previous
  · obtain ⟨hnext', hdeltas'⟩ := take_emission_keeps sha1_hex now hnext (.Full
      (state.environment_context_tracker.next_sequence + 1) snapshot) (by intro _ _ _ h; cases h)
    exact ⟨hnext', hdeltas'.trans hdeltas, .inr (by simp)⟩
  · have hpast : 1 ≤ state.environment_context_tracker.next_sequence := by
      rcases htracker with hnone | hpast
      · rw [hnone] at hlast
        cases hlast
      · exact hpast
    by_cases hsame : snapshot.fingerprint sha1_hex = previous.fingerprint sha1_hex
    · simp only [hsame, if_true]
      exact ⟨hnext, hdeltas, .inr hpast⟩
    · simp only [hsame, if_false]
      obtain ⟨hnext', hdeltas'⟩ := take_emission_keeps sha1_hex now hnext (.Delta
        (state.environment_context_tracker.next_sequence + 1) snapshot
        (snapshot.diff_from sha1_hex previous)) (by intro _ _ _ h; cases h; omega)
      exact ⟨hnext', hdeltas'.trans hdeltas, .inr (by simp)⟩

/-- However the environment changes, the timeline of a session never holds a delta. -/
theorem session_timeline_holds_no_delta (observed : List EnvironmentContextSnapshot) :
    (observed.foldl (fun state snapshot =>
      state.maybe_emit_env_ctx_messages sha1_hex now snapshot)
      ContextState.new).context_timeline.deltas = [] := by
  have hrun : ∀ state, Lagging state → Lagging (observed.foldl (fun state snapshot =>
      state.maybe_emit_env_ctx_messages sha1_hex now snapshot) state) := by
    induction observed with
    | nil => exact fun _ h => h
    | cons snapshot rest ih =>
      intro state h
      exact ih _ (maybe_emit_lagging sha1_hex now h snapshot)
  exact (hrun _ ⟨rfl, rfl, .inl rfl⟩).2.1

end session

end Ecode.environment
