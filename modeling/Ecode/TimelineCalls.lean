-- The calls of the timeline statement by statement, the sequence of its deltas over any run of
-- calls, and the prompt that it gives (core/src/context_timeline/timeline.rs).
import Ecode.ContextTimeline
import Ecode.HistoryBridge

namespace Ecode.environment

open compact (ENVIRONMENT_CONTEXT_OPEN_TAG ENVIRONMENT_CONTEXT_CLOSE_TAG
  ENVIRONMENT_CONTEXT_DELTA_OPEN_TAG ENVIRONMENT_CONTEXT_DELTA_CLOSE_TAG)

namespace ContextTimeline

/-! ## The calls -/

/-- A method on `&mut self`: what it wrote before it failed stays written. -/
abbrev Method (α : Type) := ExceptT TimelineError (StateM ContextTimeline) α

def Method.call {α : Type} (m : Method α) (t : ContextTimeline) :
    Except TimelineError α × ContextTimeline :=
  (m.run).run t

namespace Method

def add_baseline_once (snapshot : EnvironmentContextSnapshot) : Method Unit := do
  if (← get).baseline.isSome then
    throw .BaselineAlreadySet
  modify fun t => { t with baseline := some snapshot }

def apply_delta (now : Text) (sequence : Nat) (delta : EnvironmentContextDelta) :
    Method Unit := do
  if (← get).baseline.isNone then
    throw .BaselineNotSet
  if sequence ≠ (← get).next_sequence then
    throw (.DeltaSequenceOutOfOrder (← get).next_sequence sequence)
  let entry : DeltaEntry := ⟨sequence, delta, now⟩
  modify fun t => { t with deltas := insert_ordered sequence entry t.deltas }
  modify fun t => { t with next_sequence := t.next_sequence + 1 }

def record_snapshot (sha1_hex : Text → Text) (now : Text)
    (snapshot : EnvironmentContextSnapshot) : Method Bool := do
  let fingerprint := snapshot.fingerprint sha1_hex
  if ((← get).snapshots.lookup fingerprint).isSome then
    return false
  let entry : SnapshotEntry := ⟨fingerprint, snapshot, now⟩
  modify fun t => { t with snapshots := t.snapshots.insert fingerprint entry }
  return true

end Method

section calls

variable {α β : Type} (t : ContextTimeline)

@[simp] theorem call_get_bind (f : ContextTimeline → Method α) :
    (get >>= f : Method α).call t = (f t).call t := rfl

@[simp] theorem call_modify_bind (g : ContextTimeline → ContextTimeline) (f : PUnit → Method α) :
    (modify g >>= f : Method α).call t = (f ()).call (g t) := rfl

@[simp] theorem call_modify (g : ContextTimeline → ContextTimeline) :
    (modify g : Method PUnit).call t = (.ok (), g t) := rfl

@[simp] theorem call_pure (a : α) : (pure a : Method α).call t = (.ok a, t) := rfl

theorem call_ite (c : Prop) [Decidable c] (a b : Method α) :
    (if c then a else b).call t = if c then a.call t else b.call t := by
  split_ifs <;> rfl

end calls

/-- The timeline is what the call makes of it, and what it was when the call fails. -/
theorem call_add_baseline_once (t : ContextTimeline) (snapshot : EnvironmentContextSnapshot) :
    (Method.add_baseline_once snapshot).call t =
      ((t.add_baseline_once snapshot).map fun _ => (),
        t.logged (t.add_baseline_once snapshot)) := by
  unfold Method.add_baseline_once ContextTimeline.add_baseline_once
  simp only [call_get_bind, call_ite, call_modify]
  split_ifs <;> rfl

theorem call_apply_delta (now : Text) (t : ContextTimeline) (sequence : Nat)
    (delta : EnvironmentContextDelta) :
    (Method.apply_delta now sequence delta).call t =
      ((t.apply_delta now sequence delta).map fun _ => (),
        t.logged (t.apply_delta now sequence delta)) := by
  unfold Method.apply_delta ContextTimeline.apply_delta
  simp only [call_get_bind, call_ite, call_modify_bind, call_modify]
  split_ifs <;> rfl

theorem call_record_snapshot (sha1_hex : Text → Text) (now : Text) (t : ContextTimeline)
    (snapshot : EnvironmentContextSnapshot) :
    (Method.record_snapshot sha1_hex now snapshot).call t =
      (.ok (t.record_snapshot sha1_hex now snapshot).2,
        (t.record_snapshot sha1_hex now snapshot).1) := by
  unfold Method.record_snapshot ContextTimeline.record_snapshot
  simp only [call_get_bind, call_ite, call_modify_bind, call_pure]
  split_ifs <;> rfl

/-! ## Runs of calls -/

inductive Call where
  | add_baseline_once (snapshot : EnvironmentContextSnapshot)
  | apply_delta (now : Text) (sequence : Nat) (delta : EnvironmentContextDelta)
  | record_snapshot (now : Text) (snapshot : EnvironmentContextSnapshot)

section runs

variable (sha1_hex : Text → Text)

def step (t : ContextTimeline) : Call → Except TimelineError Unit × ContextTimeline
  | .add_baseline_once snapshot => (Method.add_baseline_once snapshot).call t
  | .apply_delta now sequence delta => (Method.apply_delta now sequence delta).call t
  | .record_snapshot now snapshot =>
    let done := (Method.record_snapshot sha1_hex now snapshot).call t
    (done.1.map fun _ => (), done.2)

/-- The timeline after calls, also when some of them fail. -/
def run (calls : List Call) : ContextTimeline :=
  calls.foldl (fun t call => (t.step sha1_hex call).2) .new

end runs

theorem step_add_baseline_once (sha1_hex : Text → Text) (t : ContextTimeline)
    (snapshot : EnvironmentContextSnapshot) :
    t.step sha1_hex (.add_baseline_once snapshot) =
      ((t.add_baseline_once snapshot).map fun _ => (), t.logged (t.add_baseline_once snapshot)) :=
  call_add_baseline_once t snapshot

theorem step_apply_delta (sha1_hex : Text → Text) (t : ContextTimeline) (now : Text)
    (sequence : Nat) (delta : EnvironmentContextDelta) :
    t.step sha1_hex (.apply_delta now sequence delta) =
      ((t.apply_delta now sequence delta).map fun _ => (),
        t.logged (t.apply_delta now sequence delta)) :=
  call_apply_delta now t sequence delta

theorem step_record_snapshot (sha1_hex : Text → Text) (t : ContextTimeline) (now : Text)
    (snapshot : EnvironmentContextSnapshot) :
    t.step sha1_hex (.record_snapshot now snapshot) =
      (.ok (), (t.record_snapshot sha1_hex now snapshot).1) := by
  have hcall := call_record_snapshot sha1_hex now t snapshot
  exact congrArg (fun done : Except TimelineError Bool × ContextTimeline =>
    (done.1.map fun _ => (), done.2)) hcall

/-- The deltas are held under the numbers from 1 on, none left out. -/
structure Sequenced (t : ContextTimeline) : Prop where
  pos : 1 ≤ t.next_sequence
  keys : t.deltas.map Prod.fst = List.range' 1 (t.next_sequence - 1)
  entries : ∀ entry ∈ t.deltas, entry.2.sequence = entry.1

theorem insert_ordered_last {α : Type} {key : Nat} (value : α) {entries : List (Nat × α)}
    (h : ∀ entry ∈ entries, entry.1 < key) :
    insert_ordered key value entries = entries ++ [(key, value)] := by
  induction entries with
  | nil => rfl
  | cons entry entries ih =>
    rw [List.forall_mem_cons] at h
    unfold insert_ordered
    rw [if_neg (by omega), if_neg (by omega), ih h.2, List.cons_append]

theorem Sequenced.lt_next {t : ContextTimeline} (h : Sequenced t) :
    ∀ entry ∈ t.deltas, entry.1 < t.next_sequence := by
  intro entry hentry
  have hkey : entry.1 ∈ t.deltas.map Prod.fst := List.mem_map_of_mem hentry
  have hpos := h.pos
  rw [h.keys, List.mem_range'_1] at hkey
  omega

theorem sequenced_new : Sequenced new := ⟨le_rfl, rfl, by simp [new]⟩

/-- An accepted delta takes the next number. -/
theorem Sequenced.apply_delta {t t' : ContextTimeline} (h : Sequenced t) {now : Text}
    {sequence : Nat} {delta : EnvironmentContextDelta}
    (happly : t.apply_delta now sequence delta = .ok t') : Sequenced t' := by
  unfold ContextTimeline.apply_delta at happly
  split_ifs at happly with hbaseline hsequence
  obtain rfl := Except.ok.inj happly
  have hnext : sequence = t.next_sequence := not_not.mp hsequence
  subst hnext
  have hpos := h.pos
  rw [insert_ordered_last _ h.lt_next]
  refine ⟨Nat.le_succ_of_le hpos, ?_, ?_⟩
  · obtain ⟨n, hn⟩ : ∃ n, t.next_sequence = n + 1 := ⟨t.next_sequence - 1, by omega⟩
    have hkeys := h.keys
    simp only [hn, Nat.add_sub_cancel] at hkeys ⊢
    rw [List.map_append, hkeys, List.range'_concat]
    simp [Nat.add_comm]
  · intro entry hentry
    rcases List.mem_append.mp hentry with hold | hnew
    · exact h.entries entry hold
    · obtain rfl := List.mem_singleton.mp hnew
      rfl

/-- Every call keeps the sequence. -/
theorem Sequenced.step {t : ContextTimeline} (h : Sequenced t) (sha1_hex : Text → Text)
    (call : Call) : Sequenced (t.step sha1_hex call).2 := by
  cases call with
  | add_baseline_once snapshot =>
    rw [step_add_baseline_once]
    unfold ContextTimeline.add_baseline_once
    split_ifs
    · exact h
    · exact ⟨h.pos, h.keys, h.entries⟩
  | apply_delta now sequence delta =>
    rw [step_apply_delta]
    cases happly : t.apply_delta now sequence delta with
    | error e => exact h
    | ok t' => exact h.apply_delta happly
  | record_snapshot now snapshot =>
    rw [step_record_snapshot]
    unfold ContextTimeline.record_snapshot
    dsimp only
    split_ifs
    · exact h
    · exact ⟨h.pos, h.keys, h.entries⟩

theorem sequenced_run (sha1_hex : Text → Text) (calls : List Call) :
    Sequenced (run sha1_hex calls) := by
  unfold run
  induction calls using List.reverseRecOn with
  | nil => exact sequenced_new
  | append_singleton calls call ih =>
    rw [List.foldl_append]
    exact ih.step sha1_hex call

/-- A call that fails leaves the timeline. -/
theorem step_error {sha1_hex : Text → Text} {t t' : ContextTimeline} {call : Call}
    {e : TimelineError} (h : t.step sha1_hex call = (.error e, t')) : t' = t := by
  have hlogged : ∀ result : Except TimelineError ContextTimeline,
      ((result.map fun _ => ()), t.logged result) = (.error e, t') → t' = t := by
    intro result hresult
    obtain ⟨herror, rfl⟩ := Prod.mk.inj hresult
    cases result with
    | error e => rfl
    | ok t' => cases herror
  cases call with
  | add_baseline_once snapshot =>
    rw [step_add_baseline_once] at h
    exact hlogged (t.add_baseline_once snapshot) h
  | apply_delta now sequence delta =>
    rw [step_apply_delta] at h
    exact hlogged (t.apply_delta now sequence delta) h
  | record_snapshot now snapshot =>
    rw [step_record_snapshot] at h
    cases (Prod.mk.inj h).1

/-! ## The prompt -/

section prompt

variable {β : Type}
-- The texts that serde_json writes. A path that is not UTF-8 is an error.
variable (snapshot_json : EnvironmentContextSnapshot → Option Text)
  (delta_json : EnvironmentContextDelta → Option Text)

def tagged_item (open_tag json close_tag : Text) (stream_id : Option Text) : ResponseItem β :=
  .Message stream_id "user".toList
    [.InputText (open_tag ++ ['\n'] ++ json ++ ['\n'] ++ close_tag)] none none

def snapshot_to_response_item (snapshot : EnvironmentContextSnapshot) (stream_id : Option Text) :
    Option (ResponseItem β) :=
  (snapshot_json snapshot).map fun json =>
    tagged_item ENVIRONMENT_CONTEXT_OPEN_TAG json ENVIRONMENT_CONTEXT_CLOSE_TAG stream_id

def delta_to_response_item (delta : EnvironmentContextDelta) (stream_id : Option Text) :
    Option (ResponseItem β) :=
  (delta_json delta).map fun json =>
    tagged_item ENVIRONMENT_CONTEXT_DELTA_OPEN_TAG json ENVIRONMENT_CONTEXT_DELTA_CLOSE_TAG
      stream_id

def assemble_prompt_items (t : ContextTimeline) (max_deltas : Nat) (stream_id : Option Text) :
    Option (List (ResponseItem β)) := do
  let items ← match t.baseline with
    | some snapshot =>
      (snapshot_to_response_item snapshot_json snapshot stream_id).map fun item => [item]
    | none => some []
  if max_deltas > 0 then
    let recent := (t.deltas.reverse.take max_deltas).reverse
    recent.foldlM (fun items entry =>
      (delta_to_response_item delta_json entry.2.delta stream_id).map fun item =>
        items ++ [item]) items
  else some items

/-- What the prompt is made of, in its order: the baseline and the last deltas. -/
def prompt_entries (t : ContextTimeline) (recent : List (Nat × DeltaEntry))
    (stream_id : Option Text) : List (Option (ResponseItem β)) :=
  (t.baseline.toList.map fun snapshot =>
      snapshot_to_response_item snapshot_json snapshot stream_id) ++
    recent.map fun entry => delta_to_response_item delta_json entry.2.delta stream_id

/-- Items pushed one after the other. -/
theorem foldlM_push {ι γ : Type} (f : ι → Option γ) (entries : List ι) (items : List γ) :
    entries.foldlM (fun items entry => (f entry).map fun item => items ++ [item]) items =
      (entries.mapM f).map fun pushed => items ++ pushed := by
  induction entries generalizing items with
  | nil => simp
  | cons entry entries ih =>
    rw [List.foldlM_cons, List.mapM_cons]
    cases f entry with
    | none => rfl
    | some item =>
      have hrest := ih (items ++ [item])
      cases hmore : entries.mapM f with
      | none =>
        rw [hmore] at hrest
        simpa using hrest
      | some pushed =>
        rw [hmore] at hrest
        simpa using hrest

theorem assemble_eq (t : ContextTimeline) (max_deltas : Nat) (stream_id : Option Text) :
    t.assemble_prompt_items (β := β) snapshot_json delta_json max_deltas stream_id =
      (t.prompt_entries snapshot_json delta_json (t.deltas.reverse.take max_deltas).reverse
        stream_id).mapM id := by
  unfold assemble_prompt_items prompt_entries
  have hrecent : ∀ items : List (ResponseItem β),
      (if max_deltas > 0 then
        (t.deltas.reverse.take max_deltas).reverse.foldlM (fun items entry =>
          (delta_to_response_item delta_json entry.2.delta stream_id).map fun item =>
            items ++ [item]) items
      else some items) =
      (((t.deltas.reverse.take max_deltas).reverse.map fun entry =>
        delta_to_response_item delta_json entry.2.delta stream_id).mapM id).map fun pushed =>
          items ++ pushed := by
    intro items
    split_ifs with hmax
    · rw [foldlM_push, List.mapM_map]
      rfl
    · rw [Nat.eq_zero_of_not_pos hmax]
      simp
  dsimp only
  simp only [hrecent, List.mapM_append]
  cases t.baseline with
  | none => simp
  | some snapshot =>
    cases hitem : (snapshot_to_response_item snapshot_json snapshot stream_id :
        Option (ResponseItem β)) with
    | none => simp [hitem]
    | some item => simp [hitem, Option.map_eq_bind]

/-- The last deltas, by their numbers. -/
theorem Sequenced.recent {t : ContextTimeline} (h : Sequenced t) (max_deltas : Nat) :
    ((t.deltas.reverse.take max_deltas).reverse).map Prod.fst =
      List.range' (t.next_sequence - min max_deltas (t.next_sequence - 1))
        (min max_deltas (t.next_sequence - 1)) := by
  have hpos := h.pos
  have hlen : t.deltas.length = t.next_sequence - 1 := by
    have hkeys := congrArg List.length h.keys
    simpa using hkeys
  rw [List.take_reverse, List.reverse_reverse, List.map_drop, h.keys, List.drop_range', hlen]
  congr 1
  all_goals omega

/-- Whatever calls were made, the deltas have the numbers from 1 to the next one, a call that
fails leaves the timeline, and the prompt is the baseline with the last deltas behind it in their
order. -/
theorem timeline_keeps_sequence (sha1_hex : Text → Text) (calls : List Call) :
    (run sha1_hex calls).deltas.map Prod.fst =
        List.range' 1 ((run sha1_hex calls).next_sequence - 1) ∧
      (∀ call e t', (run sha1_hex calls).step sha1_hex call = (.error e, t') →
        t' = run sha1_hex calls) ∧
      ∀ max_deltas stream_id, ∃ recent, recent <:+ (run sha1_hex calls).deltas ∧
        recent.map Prod.fst =
          List.range' ((run sha1_hex calls).next_sequence -
              min max_deltas ((run sha1_hex calls).next_sequence - 1))
            (min max_deltas ((run sha1_hex calls).next_sequence - 1)) ∧
        (run sha1_hex calls).assemble_prompt_items (β := β) snapshot_json delta_json max_deltas
            stream_id =
          ((run sha1_hex calls).prompt_entries snapshot_json delta_json recent stream_id).mapM
            id := by
  have hsequenced := sequenced_run sha1_hex calls
  refine ⟨hsequenced.keys, fun call e t' h => step_error h, ?_⟩
  intro max_deltas stream_id
  refine ⟨_, ?_, hsequenced.recent max_deltas, assemble_eq _ _ _ max_deltas stream_id⟩
  rw [List.take_reverse, List.reverse_reverse]
  exact List.drop_suffix _ _

end prompt

end ContextTimeline

end Ecode.environment
