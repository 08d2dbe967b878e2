-- The stage-1 outputs of the memories and their usage metadata: a refresh that
-- works on a copy beside calls that count a use (core/src/memories/mod.rs).
import Ecode.SessionCatalog

namespace Ecode.memories

open keyed rollout_catalog

/-- `DateTime<Utc>`, in nanoseconds. -/
abbrev DateTime := Int

def days (n : Int) : Int := n * 86400 * 10 ^ 9

structure Stage1Output where
  session_id : Uuid
  rollout_path : Path
  cwd : Path
  git_branch : Option Text
  source_updated_at : DateTime
  generated_at : DateTime
  raw_memory : Text
  rollout_summary : Text
  rollout_slug : Option Text
  usage_count : Nat
  last_usage : Option DateTime
  deriving DecidableEq

/-- `u64::saturating_add(1)`. -/
def saturating_succ (n : Nat) : Nat := min (n + 1) (2 ^ 64 - 1)

/-! ## The functions -/

/-- What one use changes in an output. -/
def Stage1Output.used (output : Stage1Output) (now : DateTime) : Stage1Output :=
  { output with usage_count := saturating_succ output.usage_count, last_usage := some now }

/-- `note_memory_usage` on the file of stage-1 outputs; without a file there is nothing to
note. -/
def note_memory_usage (file : Option (List Stage1Output)) (rollout_ids : List Uuid)
    (now : DateTime) : Option (List Stage1Output) :=
  file.map fun outputs => outputs.map fun output =>
    if output.session_id ∈ rollout_ids then output.used now else output

/-- The sessions that may keep their outputs, with the time of their last event. -/
def allowed_sessions (parse_from_rfc3339 : Text → Option DateTime) (catalog : SessionCatalog) :
    List (Uuid × DateTime) :=
  ((catalog.all_ordered.filter fun entry => !entry.deleted && !entry.archived).filter
    fun entry => entry.session_source = .Cli ∨ entry.session_source = .VSCode).filterMap
      fun entry => (parse_from_rfc3339 entry.last_event_at).map (entry.session_id, ·)

/-- `prune_stage1_outputs`; the clock is read anew for each output. -/
def prune_stage1_outputs (parse_from_rfc3339 : Text → Option DateTime) (now : Uuid → DateTime)
    (outputs : List Stage1Output) (catalog : SessionCatalog) (max_rollout_age_days : Int) :
    List Stage1Output :=
  let max_age := days (max max_rollout_age_days 0)
  outputs.filter fun output =>
    (keyed.get Prod.fst (allowed_sessions parse_from_rfc3339 catalog).reverse output.session_id).any
      fun session => now output.session_id - session.2 ≤ max_age

def upsert_stage1_output (outputs : List Stage1Output) (next : Stage1Output) : List Stage1Output :=
  let next :=
    match keyed.get Stage1Output.session_id outputs next.session_id with
    | some existing =>
      { next with usage_count := existing.usage_count, last_usage := existing.last_usage }
    | none => next
  erase Stage1Output.session_id outputs next.session_id ++ [next]

def max_optional_datetime : Option DateTime → Option DateTime → Option DateTime
  | some left, some right => some (max left right)
  | some value, none => some value
  | none, some value => some value
  | none, none => none

/-- An output with the larger of two usages. -/
def Stage1Output.merged (output persisted : Stage1Output) : Stage1Output :=
  { output with
    usage_count := max output.usage_count persisted.usage_count
    last_usage := max_optional_datetime output.last_usage persisted.last_usage }

/-- `merge_usage_metadata_from_persisted`: a map takes the last output of a session. -/
def merge_usage_metadata_from_persisted (file : Option (List Stage1Output))
    (outputs : List Stage1Output) : List Stage1Output :=
  match file with
  | none => outputs
  | some existing_outputs => outputs.map fun output =>
    match keyed.get Stage1Output.session_id existing_outputs.reverse output.session_id with
    | none => output
    | some persisted => output.merged persisted

/-- `save_stage1_outputs`: the file afterwards. -/
def save_stage1_outputs (file : Option (List Stage1Output)) (outputs : List Stage1Output) :
    Option (List Stage1Output) :=
  some (merge_usage_metadata_from_persisted file outputs)

/-! ## One refresh among the calls -/

/-- Where `refresh_memories` stands, with its own copy of the outputs. -/
inductive Refresh where
  | waiting
  | loaded (outputs : List Stage1Output)
  | saved (outputs : List Stage1Output)
  | finished

structure State where
  file : Option (List Stage1Output)
  refresh : Refresh := .waiting

/-- What happens under the lock of the outputs, and what the refresh does to its copy. -/
inductive Action where
  | note (rollout_ids : List Uuid) (now : DateTime)
  | load
  | prune (now : Uuid → DateTime) (catalog : SessionCatalog) (max_rollout_age_days : Int)
  | upsert (next : Stage1Output)
  | save

variable (parse_from_rfc3339 : Text → Option DateTime)

/-- A summary comes from `summarize_entry` without any use. -/
def step (s : State) : Action → Option State
  | .note rollout_ids now => some { s with file := note_memory_usage s.file rollout_ids now }
  | .load =>
    match s.refresh with
    | .waiting => some { s with refresh := .loaded (s.file.getD []) }
    | _ => none
  | .prune now catalog max_rollout_age_days =>
    match s.refresh with
    | .loaded outputs =>
      let outputs :=
        prune_stage1_outputs parse_from_rfc3339 now outputs catalog max_rollout_age_days
      some { s with refresh := .loaded outputs }
    | _ => none
  | .upsert next =>
    match s.refresh with
    | .loaded outputs =>
      if next.usage_count = 0 ∧ next.last_usage = none then
        some { s with refresh := .loaded (upsert_stage1_output outputs next) }
      else none
    | _ => none
  | .save =>
    match s.refresh with
    | .loaded outputs =>
      some { file := save_stage1_outputs s.file outputs, refresh := .saved outputs }
    | .saved outputs => some { file := save_stage1_outputs s.file outputs, refresh := .finished }
    | _ => none

/-- The times of the calls that named the session. -/
def times (id : Uuid) (as : List Action) : List DateTime :=
  as.filterMap fun
    | .note rollout_ids now => if id ∈ rollout_ids then some now else none
    | _ => none

variable {outputs : List Stage1Output} {s s' : State}

/-- What a step finds and what it makes of it. -/
inductive Stepped (s : State) : Action → State → Prop
  | note (rollout_ids : List Uuid) (now : DateTime) :
    Stepped s (.note rollout_ids now) { s with file := note_memory_usage s.file rollout_ids now }
  | load : s.refresh = .waiting → Stepped s .load { s with refresh := .loaded (s.file.getD []) }
  | prune {copy : List Stage1Output} (now : Uuid → DateTime) (catalog : SessionCatalog)
      (max_days : Int) : s.refresh = .loaded copy →
    Stepped s (.prune now catalog max_days) { s with
      refresh := .loaded (prune_stage1_outputs parse_from_rfc3339 now copy catalog max_days) }
  | upsert {copy : List Stage1Output} (next : Stage1Output) : s.refresh = .loaded copy →
    next.usage_count = 0 → next.last_usage = none →
    Stepped s (.upsert next) { s with refresh := .loaded (upsert_stage1_output copy next) }
  | save {copy : List Stage1Output} : s.refresh = .loaded copy →
    Stepped s .save { file := save_stage1_outputs s.file copy, refresh := .saved copy }
  | save_again {copy : List Stage1Output} : s.refresh = .saved copy →
    Stepped s .save { file := save_stage1_outputs s.file copy, refresh := .finished }

variable {parse_from_rfc3339} in
theorem stepped {a : Action} (hstep : step parse_from_rfc3339 s a = some s') :
    Stepped parse_from_rfc3339 s a s' := by
  cases a with
  | note rollout_ids now =>
    obtain rfl := Option.some.inj hstep
    exact .note rollout_ids now
  | load =>
    cases hr : s.refresh <;> simp only [step, hr, Option.some.injEq, reduceCtorEq] at hstep
    subst hstep
    exact .load hr
  | prune now catalog max_days =>
    cases hr : s.refresh <;> simp only [step, hr, Option.some.injEq, reduceCtorEq] at hstep
    subst hstep
    exact .prune now catalog max_days hr
  | upsert next =>
    cases hr : s.refresh <;> simp only [step, hr, reduceCtorEq] at hstep
    split_ifs at hstep with hnew
    obtain rfl := Option.some.inj hstep
    exact .upsert next hr hnew.1 hnew.2
  | save =>
    cases hr : s.refresh <;> simp only [step, hr, Option.some.injEq, reduceCtorEq] at hstep
    · subst hstep
      exact .save hr
    · subst hstep
      exact .save_again hr

/-! ## Files that repeat no session -/

theorem session_id_merged (persisted : List Stage1Output) (output : Stage1Output) :
    (match keyed.get Stage1Output.session_id persisted.reverse output.session_id with
    | none => output
    | some persisted => output.merged persisted).session_id = output.session_id := by
  split <;> rfl

theorem session_id_noted (rollout_ids : List Uuid) (now : DateTime) (output : Stage1Output) :
    (if output.session_id ∈ rollout_ids then output.used now else output).session_id
      = output.session_id := by
  split_ifs <;> rfl

theorem once_upsert_stage1 (h : Once Stage1Output.session_id outputs) (next : Stage1Output) :
    Once Stage1Output.session_id (upsert_stage1_output outputs next) := by
  have hput : ∀ new : Stage1Output, Once Stage1Output.session_id
      (erase Stage1Output.session_id outputs new.session_id ++ [new]) := by
    intro new
    unfold Once
    rw [List.map_append, List.map_singleton, List.nodup_append_comm, List.singleton_append]
    exact h.insert new
  unfold upsert_stage1_output
  cases keyed.get Stage1Output.session_id outputs next.session_id with
  | none => exact hput next
  | some existing => exact hput _

theorem once_save (h : Once Stage1Output.session_id outputs) (file : Option (List Stage1Output)) :
    ∀ saved ∈ save_stage1_outputs file outputs, Once Stage1Output.session_id saved := by
  rintro saved ⟨⟩
  cases file with
  | none => exact h
  | some persisted => exact h.map (session_id_merged persisted)

/-- The file and the copy of the refresh have each session once. -/
def StoredOnce (s : State) : Prop :=
  (∀ outputs ∈ s.file, Once Stage1Output.session_id outputs) ∧
    match s.refresh with
    | .loaded copy | .saved copy => Once Stage1Output.session_id copy
    | _ => True

/-- No writer of the file repeats a session. -/
theorem StoredOnce.step (h : StoredOnce s) {a : Action}
    (hstep : memories.step parse_from_rfc3339 s a = some s') : StoredOnce s' := by
  obtain ⟨hfile, hcopy⟩ := h
  cases stepped hstep with
  | note rollout_ids now =>
    refine ⟨?_, hcopy⟩
    intro noted hnoted
    obtain ⟨outputs, houtputs, rfl⟩ := Option.map_eq_some_iff.mp hnoted
    exact (hfile outputs houtputs).map (session_id_noted rollout_ids now)
  | load =>
    refine ⟨hfile, ?_⟩
    cases hf : s.file with
    | none => exact List.nodup_nil
    | some outputs => exact hfile outputs hf
  | prune now catalog max_days hr =>
    rw [hr] at hcopy
    exact ⟨hfile, hcopy.sublist (List.filter_sublist.map _)⟩
  | upsert next hr =>
    rw [hr] at hcopy
    exact ⟨hfile, once_upsert_stage1 hcopy next⟩
  | save hr =>
    rw [hr] at hcopy
    exact ⟨once_save hcopy s.file, hcopy⟩
  | save_again hr =>
    rw [hr] at hcopy
    exact ⟨once_save hcopy s.file, trivial⟩

/-! ## Metadata that only grows -/

/-- A part of the usage metadata: a use moves it on, a merge takes the larger one, and a new
output has the least. -/
structure Metadata (V : Type) [LinearOrder V] [OrderBot V] where
  value : Stage1Output → V
  bump : DateTime → V → V
  used : ∀ output now, value (output.used now) = bump now (value output)
  merged : ∀ output persisted,
    value (output.merged persisted) = max (value output) (value persisted)
  kept : ∀ next existing : Stage1Output, value { next with
    usage_count := existing.usage_count
    last_usage := existing.last_usage } = value existing
  new : ∀ next : Stage1Output, next.usage_count = 0 → next.last_usage = none → value next = ⊥

variable {V : Type} [LinearOrder V] [OrderBot V] {m : Metadata V} {id : Uuid} {v : V}
  {persisted : List Stage1Output}

/-- Every use moves the value on, from `v`. -/
def Grows (m : Metadata V) : V → List DateTime → Prop
  | _, [] => True
  | v, now :: later => v ≤ m.bump now v ∧ Grows m (m.bump now v) later

/-- The file says `v` of the session, if it has it. -/
structure Says (m : Metadata V) (id : Uuid) (v : V) (outputs : List Stage1Output) : Prop where
  once : Once Stage1Output.session_id outputs
  value : ∀ e ∈ outputs, e.session_id = id → m.value e = v

/-- The copy of the refresh is not ahead of the file. -/
structure Behind (m : Metadata V) (id : Uuid) (v : V) (outputs : List Stage1Output) : Prop where
  once : Once Stage1Output.session_id outputs
  value : ∀ e ∈ outputs, e.session_id = id → m.value e ≤ v

def ids (outputs : List Stage1Output) : List Uuid := outputs.map Stage1Output.session_id

theorem Says.behind (h : Says m id v outputs) : Behind m id v outputs :=
  ⟨h.once, fun e he hid => (h.value e he hid).le⟩

theorem Behind.mono {w : V} (h : Behind m id v outputs) (hvw : v ≤ w) : Behind m id w outputs :=
  ⟨h.once, fun e he hid => (h.value e he hid).trans hvw⟩

theorem Behind.prune (h : Behind m id v outputs) (now : Uuid → DateTime) (catalog : SessionCatalog)
    (max_days : Int) :
    Behind m id v (prune_stage1_outputs parse_from_rfc3339 now outputs catalog max_days) :=
  ⟨h.once.sublist (List.filter_sublist.map _),
    fun e he hid => h.value e (List.mem_of_mem_filter he) hid⟩

/-- A summary takes the metadata of the output it replaces. -/
theorem Behind.upsert (h : Behind m id v outputs) {next : Stage1Output}
    (hcount : next.usage_count = 0) (hlast : next.last_usage = none) :
    Behind m id v (upsert_stage1_output outputs next) := by
  refine ⟨once_upsert_stage1 h.once next, ?_⟩
  have hput : ∀ new : Stage1Output, (new.session_id = id → m.value new ≤ v) →
      ∀ e ∈ erase Stage1Output.session_id outputs new.session_id ++ [new], e.session_id = id →
        m.value e ≤ v := by
    intro new hnew e he hid
    rcases List.mem_append.mp he with he | he
    · exact h.value e (mem_erase.mp he).1 hid
    · obtain rfl := List.mem_singleton.mp he
      exact hnew hid
  unfold upsert_stage1_output
  cases hget : keyed.get Stage1Output.session_id outputs next.session_id with
  | none =>
    apply hput
    intro _
    rw [m.new next hcount hlast]
    exact bot_le
  | some existing =>
    apply hput
    intro hid
    rw [m.kept next existing]
    exact h.value existing (mem_of_get hget) ((key_of_get hget).trans hid)

theorem get_reverse (h : Once Stage1Output.session_id outputs) (k : Uuid) :
    keyed.get Stage1Output.session_id outputs.reverse k =
      keyed.get Stage1Output.session_id outputs k := by
  have hreverse : Once Stage1Output.session_id outputs.reverse := by
    unfold Once
    rw [List.map_reverse, List.nodup_reverse]
    exact h
  ext e
  rw [hreverse.get_iff, h.get_iff, List.mem_reverse]

/-- A save writes the sessions of the copy, with what the file says of them. -/
theorem Says.save (h : Says m id v persisted) (hcopy : Behind m id v outputs)
    (hid : id ∈ ids outputs → id ∈ ids persisted) :
    ∃ saved, save_stage1_outputs (some persisted) outputs = some saved ∧ Says m id v saved ∧
      ids saved = ids outputs := by
  refine ⟨_, rfl, ?_⟩
  unfold merge_usage_metadata_from_persisted
  dsimp only
  have hids := session_id_merged persisted
  refine ⟨⟨hcopy.once.map hids, ?_⟩, ?_⟩
  · intro e he hesid
    obtain ⟨output, houtput, rfl⟩ := List.mem_map.mp he
    rw [hids] at hesid
    obtain ⟨old, hold⟩ : ∃ old, keyed.get Stage1Output.session_id persisted id = some old := by
      rw [← Option.isSome_iff_exists, get_isSome]
      exact hid (hesid ▸ List.mem_map_of_mem houtput)
    rw [← hesid, ← get_reverse h.once] at hold
    rw [hold]
    dsimp only
    have hvalue :=
      h.value old (List.mem_reverse.mp (mem_of_get hold)) ((key_of_get hold).trans hesid)
    rw [m.merged, hvalue]
    exact max_eq_right (hcopy.value output houtput hesid)
  · unfold ids
    rw [List.map_map]
    exact List.map_congr_left fun output _ => hids output

theorem Says.note (h : Says m id v outputs) (rollout_ids : List Uuid) (now : DateTime) :
    ∃ noted, note_memory_usage (some outputs) rollout_ids now = some noted ∧
      ids noted = ids outputs ∧
      Says m id (if id ∈ rollout_ids then m.bump now v else v) noted := by
  have hids := session_id_noted rollout_ids now
  refine ⟨_, rfl, ?_, h.once.map hids, ?_⟩
  · unfold ids
    rw [List.map_map]
    exact List.map_congr_left fun output _ => hids output
  · intro e he hesid
    obtain ⟨output, houtput, rfl⟩ := List.mem_map.mp he
    rw [hids] at hesid
    rw [hesid]
    split_ifs
    · rw [m.used, h.value output houtput hesid]
    · exact h.value output houtput hesid

/-! ## Runs -/

/-- What holds at each point of the refresh. The session is in the file until the first save; from
then on the file has the sessions of the copy. -/
structure Along (m : Metadata V) (id : Uuid) (v : V) (s : State) (outputs : List Stage1Output) :
    Prop where
  file : s.file = some outputs
  value : Says m id v outputs
  refresh : match s.refresh with
    | .waiting => id ∈ ids outputs
    | .loaded copy => id ∈ ids outputs ∧ Behind m id v copy
    | .saved copy => (id ∈ ids copy → id ∈ ids outputs) ∧ Behind m id v copy
    | .finished => True

/-- What one action makes of the value. -/
def after (m : Metadata V) (id : Uuid) (v : V) (as : List Action) : V :=
  (times id as).foldl (fun v now => m.bump now v) v

/-- A call between the steps of the refresh. -/
theorem Along.note (h : Along m id v s outputs) (rollout_ids : List Uuid) (now : DateTime)
    (hgrows : Grows m v (times id [.note rollout_ids now])) :
    ∃ outputs', Along m id (after m id v [.note rollout_ids now])
      { s with file := note_memory_usage s.file rollout_ids now } outputs' := by
  obtain ⟨hfile, hsays, hrefresh⟩ := h
  obtain ⟨noted, hnoted, hids, hsays'⟩ := hsays.note rollout_ids now
  have hvalue : after m id v [.note rollout_ids now]
      = if id ∈ rollout_ids then m.bump now v else v := by
    unfold after times
    split_ifs with hid <;> simp [hid]
  have hle : v ≤ after m id v [.note rollout_ids now] := by
    rw [hvalue]
    split_ifs with hid
    · simp only [times, List.filterMap_cons, hid, if_true, List.filterMap_nil] at hgrows
      exact hgrows.1
    · exact le_rfl
  refine ⟨noted, ?_, hvalue ▸ hsays', ?_⟩
  · dsimp only
    rw [hfile, hnoted]
  · dsimp only
    rw [hids]
    cases hr : s.refresh with
    | waiting => simpa [hr] using hrefresh
    | loaded copy =>
      rw [hr] at hrefresh
      exact ⟨hrefresh.1, hrefresh.2.mono hle⟩
    | saved copy =>
      rw [hr] at hrefresh
      exact ⟨hrefresh.1, hrefresh.2.mono hle⟩
    | finished => trivial

theorem Along.step (h : Along m id v s outputs) {a : Action}
    (hgrows : Grows m v (times id [a])) (hstep : memories.step parse_from_rfc3339 s a = some s') :
    ∃ outputs', Along m id (after m id v [a]) s' outputs' := by
  have hbefore := h
  obtain ⟨hfile, hsays, hrefresh⟩ := h
  cases stepped hstep with
  | note rollout_ids now => exact hbefore.note rollout_ids now hgrows
  | load hr =>
    rw [hr] at hrefresh
    refine ⟨outputs, hfile, hsays, hrefresh, ?_⟩
    rw [hfile]
    exact hsays.behind
  | prune now catalog max_days hr =>
    rw [hr] at hrefresh
    exact ⟨outputs, hfile, hsays, hrefresh.1, hrefresh.2.prune _ now catalog max_days⟩
  | upsert next hr hcount hlast =>
    rw [hr] at hrefresh
    exact ⟨outputs, hfile, hsays, hrefresh.1, hrefresh.2.upsert hcount hlast⟩
  | save hr =>
    rw [hr] at hrefresh
    obtain ⟨saved, hsaved, hsays', hids⟩ := hsays.save hrefresh.2 fun _ => hrefresh.1
    refine ⟨saved, ?_, hsays', fun hcopy => hids ▸ hcopy, hrefresh.2⟩
    dsimp only
    rw [hfile, hsaved]
  | save_again hr =>
    rw [hr] at hrefresh
    obtain ⟨saved, hsaved, hsays', -⟩ := hsays.save hrefresh.2 hrefresh.1
    refine ⟨saved, ?_, hsays', trivial⟩
    dsimp only
    rw [hfile, hsaved]

theorem Along.run (h : Along m id v s outputs) {as : List Action}
    (hgrows : Grows m v (times id as))
    (hrun : as.foldlM (memories.step parse_from_rfc3339) s = some s') :
    ∃ outputs', Along m id (after m id v as) s' outputs' := by
  induction as generalizing s v outputs with
  | nil =>
    obtain rfl : s = s' := by simpa using hrun
    exact ⟨outputs, h⟩
  | cons a as ih =>
    rw [List.foldlM_cons] at hrun
    obtain ⟨t, ht, hrest⟩ := Option.bind_eq_some_iff.mp hrun
    have htimes : times id (a :: as) = times id [a] ++ times id as := by
      unfold times
      rw [← List.filterMap_append, List.singleton_append]
    have hafter : after m id v (a :: as) = after m id (after m id v [a]) as := by
      unfold after
      rw [htimes, List.foldl_append]
    rw [htimes] at hgrows
    have hsplit : ∀ (now later : List DateTime) (v : V), Grows m v (now ++ later) →
        Grows m v now ∧ Grows m (now.foldl (fun v now => m.bump now v) v) later := by
      intro now later
      induction now with
      | nil => exact fun v h => ⟨trivial, h⟩
      | cons n now ih =>
        rintro v ⟨hn, h⟩
        exact ⟨⟨hn, (ih _ h).1⟩, (ih _ h).2⟩
    obtain ⟨hnow, hlater⟩ := hsplit _ _ _ hgrows
    obtain ⟨outputs', h'⟩ := h.step parse_from_rfc3339 hnow ht
    rw [hafter]
    exact ih h' hlater hrest

/-! ## Counts and times -/

def usage_count : Metadata Nat where
  value output := output.usage_count
  bump _ n := saturating_succ n
  used _ _ := rfl
  merged _ _ := rfl
  kept _ _ := rfl
  new _ hcount _ := hcount

/-- A time, or none, which comes before every time. -/
def time_or_none : Option DateTime → WithBot DateTime
  | none => ⊥
  | some t => t

theorem time_or_none_inj {a b : Option DateTime} (h : time_or_none a = time_or_none b) : a = b := by
  cases a <;> cases b <;> simp_all [time_or_none]

def last_usage : Metadata (WithBot DateTime) where
  value output := time_or_none output.last_usage
  bump now _ := now
  used _ _ := rfl
  merged output persisted := by
    unfold Stage1Output.merged
    cases output.last_usage <;> cases persisted.last_usage <;>
      simp [max_optional_datetime, time_or_none]
  kept _ _ := rfl
  new _ _ hlast := by simp [hlast, time_or_none]

theorem grows_usage_count {n : Nat} {ts : List DateTime} (h : n + ts.length < 2 ^ 64) :
    Grows usage_count n ts ∧
      ts.foldl (fun v now => usage_count.bump now v) n = n + ts.length := by
  induction ts generalizing n with
  | nil => exact ⟨trivial, rfl⟩
  | cons now ts ih =>
    rw [List.length_cons] at h
    have hsucc : usage_count.bump now n = n + 1 := by
      simp only [usage_count, saturating_succ]
      omega
    unfold Grows
    rw [List.foldl_cons, hsucc, List.length_cons]
    obtain ⟨hgrows, hvalue⟩ := ih (n := n + 1) (by omega)
    exact ⟨⟨by omega, hgrows⟩, by rw [hvalue]; omega⟩

/-- A clock that does not go back moves the last usage on, to the latest time. -/
theorem grows_last_usage {last : Option DateTime} {ts : List DateTime}
    (h : (last.toList ++ ts).Pairwise (· ≤ ·)) : Grows last_usage (time_or_none last) ts ∧
      ts.foldl (fun v now => last_usage.bump now v) (time_or_none last)
        = time_or_none (ts.max?.or last) := by
  induction ts generalizing last with
  | nil => exact ⟨trivial, rfl⟩
  | cons now ts ih =>
    rw [List.pairwise_append] at h
    obtain ⟨-, hts, hlast⟩ := h
    obtain ⟨hnow, hlater⟩ := List.pairwise_cons.mp hts
    obtain ⟨hgrows, hvalue⟩ := @ih (some now) hts
    have hle : time_or_none last ≤ now := by
      cases last with
      | none => exact bot_le
      | some t => exact WithBot.coe_le_coe.mpr (hlast t (by simp) now (by simp))
    have hmax : (now :: ts).max? = ts.max?.or (some now) := by
      rw [List.max?_cons]
      cases hm : ts.max? with
      | none => rfl
      | some t =>
        have ht : now ≤ t := hnow t (List.max?_mem hm)
        simp [max_eq_right ht]
    refine ⟨⟨hle, hgrows⟩, ?_⟩
    rw [List.foldl_cons, hmax]
    refine hvalue.trans (congrArg time_or_none ?_)
    cases ts.max? <;> rfl

/-- At every point of a refresh among calls: a session that was stored and still is has its first
count and one for each call that named it; its last usage is the latest of these calls' times as
long as the clock does not go back. -/
theorem usage_metadata_exact {outputs : List Stage1Output}
    (hstored : Once Stage1Output.session_id outputs) {first : Stage1Output}
    (hfirst : first ∈ outputs) {as : List Action}
    (hrun : as.foldlM (step parse_from_rfc3339) { file := some outputs } = some s')
    {kept : Stage1Output} (hkept : kept ∈ s'.file.getD [])
    (hid : kept.session_id = first.session_id) :
    (first.usage_count + (times first.session_id as).length < 2 ^ 64 →
      kept.usage_count = first.usage_count + (times first.session_id as).length) ∧
    ((first.last_usage.toList ++ times first.session_id as).Pairwise (· ≤ ·) →
      kept.last_usage = (times first.session_id as).max?.or first.last_usage) := by
  have hend : ∀ {V : Type} [LinearOrder V] [OrderBot V] (m : Metadata V),
      Grows m (m.value first) (times first.session_id as) →
      m.value kept = after m first.session_id (m.value first) as := by
    intro V _ _ m hgrows
    have hstart : Along m first.session_id (m.value first) { file := some outputs } outputs := by
      refine ⟨rfl, ⟨hstored, ?_⟩, List.mem_map_of_mem hfirst⟩
      intro e he heq
      rw [hstored.eq_of_mem he hfirst heq]
    obtain ⟨outputs', hfile, hsays, -⟩ := hstart.run parse_from_rfc3339 hgrows hrun
    rw [hfile] at hkept
    exact hsays.value kept hkept hid
  refine ⟨fun hbound => ?_, fun hsorted => ?_⟩
  · obtain ⟨hgrows, hvalue⟩ := grows_usage_count hbound
    exact (hend usage_count hgrows).trans hvalue
  · obtain ⟨hgrows, hvalue⟩ := grows_last_usage hsorted
    exact time_or_none_inj ((hend last_usage hgrows).trans hvalue)

/-! ### Two calls while the clock goes back -/

def small_output : Stage1Output where
  session_id := 7
  rollout_path := Path.of_text "/h/sessions/rollout-a.jsonl".toList
  cwd := Path.of_text "/w".toList
  git_branch := none
  source_updated_at := 1
  generated_at := 2
  raw_memory := "raw".toList
  rollout_summary := "summary".toList
  rollout_slug := none
  usage_count := 4
  last_usage := none

/-- A refresh that prunes nothing, with a call before its load and another call at either side of
it. -/
def small_run (first second : DateTime) (early : Bool) : List Action :=
  .note [7] first :: (if early then [.note [7, 8] second, .load] else [.load, .note [7, 8] second])
    ++ [.save, .save]

/-- The file and the refresh when both calls are noted. -/
def small_end (second : DateTime) : State where
  file := some [{ small_output with usage_count := 6, last_usage := some second }]
  refresh := .finished

theorem small_usage_exact :
    (small_output.usage_count + (times 7 (small_run 3 5 false)).length < 2 ^ 64 →
      6 = small_output.usage_count + (times 7 (small_run 3 5 false)).length) ∧
    ((small_output.last_usage.toList ++ times 7 (small_run 3 5 false)).Pairwise (· ≤ ·) →
      some 5 = (times 7 (small_run 3 5 false)).max?.or small_output.last_usage) :=
  have honce : Once Stage1Output.session_id [small_output] := by simp [Once]
  have hrun : (small_run 3 5 false).foldlM (step fun _ => none) { file := some [small_output] } =
      some (small_end 5) := rfl
  have hkept : { small_output with usage_count := 6, last_usage := some 5 } ∈
      (small_end 5).file.getD [] := List.mem_singleton_self _
  usage_metadata_exact (fun _ => none) honce (List.mem_singleton_self _) hrun hkept rfl

/-- A call at time 5, then one at time 3: the time that stays is not the latest. -/
theorem last_usage_goes_back :
    ¬ ∀ (outputs : List Stage1Output) (as : List Action) (s' : State) (first kept : Stage1Output),
      Once Stage1Output.session_id outputs → first ∈ outputs →
      as.foldlM (step fun _ => none) { file := some outputs } = some s' →
      kept ∈ s'.file.getD [] → kept.session_id = first.session_id →
      kept.last_usage = (times first.session_id as).max?.or first.last_usage := by
  intro h
  have heq := h [small_output] (small_run 5 3 true) (small_end 3) small_output
    { small_output with usage_count := 6, last_usage := some 3 } (by simp [Once])
    (List.mem_singleton_self _) rfl (List.mem_singleton_self _) rfl
  revert heq
  decide

end Ecode.memories
