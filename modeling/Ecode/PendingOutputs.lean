-- The request after an automatic compaction (core/src/codex/streaming.rs): the outputs that
-- wait for the next request go after the compacted history, with the calls that the history
-- lost. The tool outputs and the calls that they answer are those of `handle_response_item`.
import Ecode.MissingCalls

namespace Ecode.turn

variable {β : Type}

/-! ## The loop -/

def collect_tool_call_ids (items : List (ResponseItem β)) : List Text :=
  items.filterMap pending_call_id

def find_call_item_by_id (items : List (ResponseItem β)) (call_id : Text) :
    Option (ResponseItem β) :=
  items.reverse.find? (fun item => pending_call_id item = some call_id)

/-- The variables of the loop of `reconcile_pending_tool_outputs`. -/
structure Reconciliation (β : Type) where
  call_ids : List Text
  missing_calls : List (ResponseItem β)
  filtered_outputs : List (ResponseItem β)

/-- One pending item. -/
def reconcile_item (previous_input_snapshot : List (ResponseItem β)) (r : Reconciliation β)
    (item : ResponseItem β) : Reconciliation β :=
  match output_call_id item with
  | some call_id =>
    if call_id ∈ r.call_ids then { r with filtered_outputs := r.filtered_outputs ++ [item] }
    else
      match find_call_item_by_id previous_input_snapshot call_id with
      | some call_item =>
        ⟨call_id :: r.call_ids, r.missing_calls ++ [call_item], r.filtered_outputs ++ [item]⟩
      | none => r
  | none => { r with filtered_outputs := r.filtered_outputs ++ [item] }

def reconcile_loop (pending_outputs rebuilt_history previous_input_snapshot :
    List (ResponseItem β)) : Reconciliation β :=
  pending_outputs.foldl (reconcile_item previous_input_snapshot)
    ⟨collect_tool_call_ids rebuilt_history, [], []⟩

def reconcile_pending_tool_outputs (pending_outputs rebuilt_history previous_input_snapshot :
    List (ResponseItem β)) : List (ResponseItem β) × List (ResponseItem β) :=
  let r := reconcile_loop pending_outputs rebuilt_history previous_input_snapshot
  (r.missing_calls, r.filtered_outputs)

/-- The request that `run_turn` sends after it has compacted the history. -/
def extend_rebuilt (rebuilt pending_input_tail previous_input_snapshot : List (ResponseItem β)) :
    List (ResponseItem β) :=
  if pending_input_tail.isEmpty then rebuilt
  else
    let (missing_calls, filtered_outputs) :=
      reconcile_pending_tool_outputs pending_input_tail rebuilt previous_input_snapshot
    rebuilt ++ missing_calls ++ filtered_outputs

/-! ## Calls and their outputs -/

/-- The id that the output of a call gets: that of a local shell call without `call_id` is
its `id`. -/
def effective_call_id : ResponseItem β → Option Text
  | .FunctionCall _ _ _ _ call_id => some call_id
  | .LocalShellCall id call_id _ => call_id.or id
  | .ToolSearchCall _ call_id _ => call_id
  | .CustomToolCall _ _ call_id _ _ _ => some call_id
  | _ => none

/-- The id of an output of any tool. -/
def tool_output_id : ResponseItem β → Option Text
  | .FunctionCallOutput call_id _ => some call_id
  | .ToolSearchOutput call_id _ => call_id
  | .CustomToolCallOutput call_id _ _ => some call_id
  | _ => none

def search_output_id : ResponseItem β → Option Text
  | .ToolSearchOutput call_id _ => call_id
  | _ => none

/-- The ids that are called. -/
def called_ids (items : List (ResponseItem β)) : List Text := items.filterMap effective_call_id

/-- The items of the pending tail that the request owes: those that are not the output of a call,
and those whose call is in the history or in the snapshot. -/
def owed (rebuilt_history previous_input_snapshot : List (ResponseItem β))
    (item : ResponseItem β) : Bool :=
  match tool_output_id item with
  | some call_id =>
    decide (call_id ∈ called_ids rebuilt_history ∨ call_id ∈ called_ids previous_input_snapshot)
  | none => true

/-- The outputs that the request takes from the pending tail stand after their calls, the calls
that it takes from the snapshot are new to it, and the items that it owes are there. -/
structure KeepsOutputsPaired (pending_outputs rebuilt_history previous_input_snapshot :
    List (ResponseItem β)) : Prop where
  paired : ∀ earlier item later call_id,
    extend_rebuilt rebuilt_history pending_outputs previous_input_snapshot =
      earlier ++ item :: later →
    rebuilt_history.length + (reconcile_pending_tool_outputs pending_outputs rebuilt_history
      previous_input_snapshot).1.length ≤ earlier.length →
    tool_output_id item = some call_id → call_id ∈ called_ids earlier
  fresh : ∀ call ∈ (reconcile_pending_tool_outputs pending_outputs rebuilt_history
      previous_input_snapshot).1, ∃ call_id, effective_call_id call = some call_id ∧
        call_id ∉ called_ids rebuilt_history
  once : ((reconcile_pending_tool_outputs pending_outputs rebuilt_history
    previous_input_snapshot).1.map effective_call_id).Nodup
  kept : (pending_outputs.filter (owed rebuilt_history previous_input_snapshot)).Sublist
    (reconcile_pending_tool_outputs pending_outputs rebuilt_history previous_input_snapshot).2

/-- No pending output of a function or a custom tool has a call that goes unseen: one by a tool
search, or by a local shell without `call_id`. A tool search whose output is pending was called in
the history, or before in the tail, or a call with its id comes back for another output. -/
def CallsAreSeen (pending_outputs rebuilt_history previous_input_snapshot :
    List (ResponseItem β)) : Prop :=
  (∀ item ∈ pending_outputs, ∀ call_id, output_call_id item = some call_id →
    (call_id ∈ called_ids rebuilt_history → call_id ∈ collect_tool_call_ids rebuilt_history) ∧
    (call_id ∈ called_ids previous_input_snapshot →
      call_id ∈ collect_tool_call_ids rebuilt_history ∨
        call_id ∈ collect_tool_call_ids previous_input_snapshot)) ∧
  ∀ earlier item later call_id, pending_outputs = earlier ++ item :: later →
    search_output_id item = some call_id →
      call_id ∈ called_ids rebuilt_history ∨ call_id ∈ called_ids earlier ∨
        (call_id ∈ collect_tool_call_ids previous_input_snapshot ∧
          ∃ output ∈ pending_outputs, output_call_id output = some call_id)

theorem effective_of_pending {item : ResponseItem β} {c : Text}
    (h : pending_call_id item = some c) : effective_call_id item = some c := by
  cases item with
  | LocalShellCall id call_id body =>
    obtain rfl : call_id = some c := h
    rfl
  | FunctionCall => exact h
  | CustomToolCall => exact h
  | _ => cases h

theorem called_of_collected {items : List (ResponseItem β)} {c : Text}
    (h : c ∈ collect_tool_call_ids items) : c ∈ called_ids items := by
  obtain ⟨item, hitem, hid⟩ := List.mem_filterMap.mp h
  exact List.mem_filterMap.mpr ⟨item, hitem, effective_of_pending hid⟩

theorem mem_called {items : List (ResponseItem β)} {item : ResponseItem β} {c : Text}
    (hitem : item ∈ items) (hid : effective_call_id item = some c) : c ∈ called_ids items :=
  List.mem_filterMap.mpr ⟨item, hitem, hid⟩

theorem called_ids_append (items items' : List (ResponseItem β)) :
    called_ids (items ++ items') = called_ids items ++ called_ids items' :=
  List.filterMap_append

theorem tool_output_id_cases {item : ResponseItem β} {c : Text}
    (h : tool_output_id item = some c) :
    output_call_id item = some c ∨ search_output_id item = some c := by
  cases item with
  | FunctionCallOutput => exact .inl h
  | CustomToolCallOutput => exact .inl h
  | ToolSearchOutput => exact .inr h
  | _ => cases h

theorem tool_output_id_of_output {item : ResponseItem β} {c : Text}
    (h : output_call_id item = some c) : tool_output_id item = some c := by
  cases item with
  | FunctionCallOutput => exact h
  | CustomToolCallOutput => exact h
  | _ => cases h

theorem search_is_no_output {item : ResponseItem β} {c : Text}
    (h : search_output_id item = some c) :
    output_call_id item = none ∧ tool_output_id item = some c := by
  cases item with
  | ToolSearchOutput => exact ⟨rfl, h⟩
  | _ => cases h

theorem call_is_no_output {item : ResponseItem β} {c : Text}
    (h : effective_call_id item = some c) : output_call_id item = none := by
  cases item with
  | FunctionCallOutput => cases h
  | CustomToolCallOutput => cases h
  | _ => rfl

/-- A call is found in the snapshot just if it is among those that the loop sees. -/
theorem find_call_some {items : List (ResponseItem β)} {c : Text} {call : ResponseItem β}
    (h : find_call_item_by_id items c = some call) : pending_call_id call = some c := by
  simpa using List.find?_some h

theorem find_call_none {items : List (ResponseItem β)} {c : Text} :
    find_call_item_by_id items c = none ↔ c ∉ collect_tool_call_ids items := by
  unfold find_call_item_by_id collect_tool_call_ids
  simp [List.find?_eq_none, List.mem_filterMap]

/-! ## What the loop leaves -/

/-- The items that the loop keeps. -/
def keeps (rebuilt_history previous_input_snapshot : List (ResponseItem β))
    (item : ResponseItem β) : Bool :=
  match output_call_id item with
  | some call_id => decide (call_id ∈ collect_tool_call_ids rebuilt_history ∨
      call_id ∈ collect_tool_call_ids previous_input_snapshot)
  | none => true

/-- The id is that of an output among the items whose call is only in the snapshot. -/
def Recovered (rebuilt_history previous_input_snapshot items : List (ResponseItem β))
    (c : Text) : Prop :=
  c ∉ collect_tool_call_ids rebuilt_history ∧ c ∈ collect_tool_call_ids previous_input_snapshot ∧
    ∃ output ∈ items, output_call_id output = some c

section loop

variable {rebuilt snapshot : List (ResponseItem β)}

/-- The loop after some items. -/
structure Reconciled (rebuilt snapshot items : List (ResponseItem β)) (r : Reconciliation β) :
    Prop where
  ids : ∀ c, c ∈ r.call_ids ↔
    c ∈ collect_tool_call_ids rebuilt ∨ Recovered rebuilt snapshot items c
  calls : ∀ c, some c ∈ r.missing_calls.map effective_call_id ↔
    Recovered rebuilt snapshot items c
  are_calls : ∀ call ∈ r.missing_calls, ∃ c, effective_call_id call = some c
  once : (r.missing_calls.map effective_call_id).Nodup
  outputs : r.filtered_outputs = items.filter (keeps rebuilt snapshot)

theorem recovered_append {items : List (ResponseItem β)} {item : ResponseItem β} {c : Text} :
    Recovered rebuilt snapshot (items ++ [item]) c ↔ Recovered rebuilt snapshot items c ∨
      (c ∉ collect_tool_call_ids rebuilt ∧ c ∈ collect_tool_call_ids snapshot ∧
        output_call_id item = some c) := by
  unfold Recovered
  simp only [List.mem_append, List.mem_singleton]
  constructor
  · rintro ⟨hnew, hold, output, houtput | rfl, hid⟩
    · exact .inl ⟨hnew, hold, output, houtput, hid⟩
    · exact .inr ⟨hnew, hold, hid⟩
  · rintro (⟨hnew, hold, output, houtput, hid⟩ | ⟨hnew, hold, hid⟩)
    · exact ⟨hnew, hold, output, .inl houtput, hid⟩
    · exact ⟨hnew, hold, item, .inr rfl, hid⟩

/-- An item that needs no call from the snapshot. -/
theorem Reconciled.keep {items : List (ResponseItem β)} {r : Reconciliation β}
    (h : Reconciled rebuilt snapshot items r) {item : ResponseItem β}
    (hkeep : keeps rebuilt snapshot item = true)
    (hsame : ∀ c, output_call_id item = some c → c ∈ r.call_ids) :
    Reconciled rebuilt snapshot (items ++ [item])
      { r with filtered_outputs := r.filtered_outputs ++ [item] } := by
  have hrecovered : ∀ c, Recovered rebuilt snapshot (items ++ [item]) c ↔
      Recovered rebuilt snapshot items c := by
    intro c
    rw [recovered_append]
    constructor
    · rintro (hold | ⟨hnew, _, hid⟩)
      · exact hold
      · exact ((h.ids c).mp (hsame c hid)).resolve_left hnew
    · exact .inl
  refine ⟨?_, ?_, h.are_calls, h.once, ?_⟩
  · intro c
    rw [hrecovered]
    exact h.ids c
  · intro c
    rw [hrecovered]
    exact h.calls c
  · simp [h.outputs, hkeep]

/-- An output whose call is nowhere. -/
theorem Reconciled.drop {items : List (ResponseItem β)} {r : Reconciliation β}
    (h : Reconciled rebuilt snapshot items r) {item : ResponseItem β} {c : Text}
    (hid : output_call_id item = some c) (hnew : c ∉ collect_tool_call_ids rebuilt)
    (hnowhere : c ∉ collect_tool_call_ids snapshot) :
    Reconciled rebuilt snapshot (items ++ [item]) r := by
  have hrecovered : ∀ c', Recovered rebuilt snapshot (items ++ [item]) c' ↔
      Recovered rebuilt snapshot items c' := by
    intro c'
    rw [recovered_append]
    constructor
    · rintro (hc' | ⟨_, hsnapshot, hc'⟩)
      · exact hc'
      · obtain rfl : c = c' := Option.some.inj (hid.symm.trans hc')
        exact absurd hsnapshot hnowhere
    · exact .inl
  refine ⟨?_, ?_, h.are_calls, h.once, ?_⟩
  · intro c'
    rw [hrecovered]
    exact h.ids c'
  · intro c'
    rw [hrecovered]
    exact h.calls c'
  · simp [h.outputs, keeps, hid, hnew, hnowhere]

/-- An output whose call comes back from the snapshot. -/
theorem Reconciled.recover {items : List (ResponseItem β)} {r : Reconciliation β}
    (h : Reconciled rebuilt snapshot items r) {item call : ResponseItem β} {c : Text}
    (hid : output_call_id item = some c) (hin : c ∉ r.call_ids)
    (hold : c ∈ collect_tool_call_ids snapshot) (hcall : effective_call_id call = some c) :
    Reconciled rebuilt snapshot (items ++ [item])
      ⟨c :: r.call_ids, r.missing_calls ++ [call], r.filtered_outputs ++ [item]⟩ := by
  have hnew : c ∉ collect_tool_call_ids rebuilt := fun hc => hin ((h.ids c).mpr (.inl hc))
  have hnot : ¬ Recovered rebuilt snapshot items c := fun hc => hin ((h.ids c).mpr (.inr hc))
  have hrecovered : ∀ c', Recovered rebuilt snapshot (items ++ [item]) c' ↔
      Recovered rebuilt snapshot items c' ∨ c' = c := by
    intro c'
    rw [recovered_append, hid]
    apply or_congr_right
    constructor
    · rintro ⟨_, _, hc'⟩
      exact (Option.some.inj hc').symm
    · rintro rfl
      exact ⟨hnew, hold, rfl⟩
  refine ⟨?_, ?_, ?_, ?_, ?_⟩
  · intro c'
    rw [hrecovered, List.mem_cons, h.ids]
    tauto
  · intro c'
    simp only [hrecovered, List.map_append, List.mem_append, h.calls, List.map_cons,
      List.map_nil, List.mem_singleton, hcall, Option.some.injEq]
  · intro call' hcall'
    rcases List.mem_append.mp hcall' with hcall' | hcall'
    · exact h.are_calls call' hcall'
    · rw [List.mem_singleton.mp hcall']
      exact ⟨c, hcall⟩
  · rw [List.map_append, List.map_singleton, ← List.concat_eq_append, hcall]
    apply h.once.concat
    intro hold_id
    exact hnot ((h.calls c).mp hold_id)
  · simp [h.outputs, keeps, hid, hold]

theorem Reconciled.step {items : List (ResponseItem β)} {r : Reconciliation β}
    (h : Reconciled rebuilt snapshot items r) (item : ResponseItem β) :
    Reconciled rebuilt snapshot (items ++ [item]) (reconcile_item snapshot r item) := by
  unfold reconcile_item
  cases hid : output_call_id item with
  | none =>
    apply h.keep
    · simp [keeps, hid]
    · intro c hc
      rw [hid] at hc
      cases hc
  | some c =>
    dsimp only
    by_cases hin : c ∈ r.call_ids
    · rw [if_pos hin]
      apply h.keep
      · have hseen : c ∈ collect_tool_call_ids rebuilt ∨ c ∈ collect_tool_call_ids snapshot :=
          ((h.ids c).mp hin).imp_right (fun hrecovered => hrecovered.2.1)
        simp [keeps, hid, hseen]
      · intro c' hc'
        obtain rfl : c = c' := Option.some.inj (hid.symm.trans hc')
        exact hin
    · rw [if_neg hin]
      cases hfind : find_call_item_by_id snapshot c with
      | none =>
        apply h.drop hid _ (find_call_none.mp hfind)
        exact fun hc => hin ((h.ids c).mpr (.inl hc))
      | some call =>
        apply h.recover hid hin _ (effective_of_pending (find_call_some hfind))
        by_contra hc
        rw [find_call_none.mpr hc] at hfind
        cases hfind

theorem reconciled_run {items : List (ResponseItem β)} {r : Reconciliation β}
    (h : Reconciled rebuilt snapshot items r) (pending : List (ResponseItem β)) :
    Reconciled rebuilt snapshot (items ++ pending)
      (pending.foldl (reconcile_item snapshot) r) := by
  induction pending generalizing items r with
  | nil => simpa using h
  | cons item pending ih =>
    have hrest := ih (h.step item)
    rw [List.append_assoc] at hrest
    exact hrest

theorem reconciled (pending rebuilt snapshot : List (ResponseItem β)) :
    Reconciled rebuilt snapshot pending (reconcile_loop pending rebuilt snapshot) := by
  have hstart : Reconciled rebuilt snapshot []
      (⟨collect_tool_call_ids rebuilt, [], []⟩ : Reconciliation β) := by
    refine ⟨?_, ?_, ?_, ?_, ?_⟩ <;> simp [Recovered]
  exact reconciled_run hstart pending

end loop

/-! ## The rebuilt request -/

section request

variable {pending rebuilt snapshot : List (ResponseItem β)}

theorem extend_rebuilt_eq (pending rebuilt snapshot : List (ResponseItem β)) :
    extend_rebuilt rebuilt pending snapshot =
      rebuilt ++ (reconcile_pending_tool_outputs pending rebuilt snapshot).1 ++
        (reconcile_pending_tool_outputs pending rebuilt snapshot).2 := by
  unfold extend_rebuilt
  cases pending with
  | nil => simp [reconcile_pending_tool_outputs, reconcile_loop]
  | cons item pending => rfl

theorem filtered_eq (pending rebuilt snapshot : List (ResponseItem β)) :
    (reconcile_pending_tool_outputs pending rebuilt snapshot).2 =
      pending.filter (keeps rebuilt snapshot) :=
  (reconciled pending rebuilt snapshot).outputs

theorem called_missing_iff {c : Text} :
    c ∈ called_ids (reconcile_pending_tool_outputs pending rebuilt snapshot).1 ↔
      Recovered rebuilt snapshot pending c := by
  rw [← (reconciled pending rebuilt snapshot).calls, List.mem_map]
  exact List.mem_filterMap

/-- The calls of the pending tail itself are all kept. -/
theorem called_kept (items : List (ResponseItem β)) :
    called_ids (items.filter (keeps rebuilt snapshot)) = called_ids items := by
  induction items with
  | nil => rfl
  | cons item items ih =>
    unfold called_ids at ih ⊢
    cases hid : effective_call_id item with
    | none =>
      by_cases hkeep : keeps rebuilt snapshot item = true
      · simp [hkeep, hid, ih]
      · simp [hkeep, hid, ih]
    | some c =>
      have hkeep : keeps rebuilt snapshot item = true := by
        simp [keeps, call_is_no_output hid]
      simp [hkeep, hid, ih]

/-- What stands after the history and the calls from the snapshot is a part of the tail. -/
theorem split_request {earlier later : List (ResponseItem β)} {item : ResponseItem β}
    (h : extend_rebuilt rebuilt pending snapshot = earlier ++ item :: later)
    (hlength : rebuilt.length +
      (reconcile_pending_tool_outputs pending rebuilt snapshot).1.length ≤ earlier.length) :
    ∃ before after, pending = before ++ item :: after ∧ keeps rebuilt snapshot item = true ∧
      earlier = rebuilt ++ (reconcile_pending_tool_outputs pending rebuilt snapshot).1 ++
        before.filter (keeps rebuilt snapshot) := by
  rw [extend_rebuilt_eq, filtered_eq] at h
  have hhead : rebuilt ++ (reconcile_pending_tool_outputs pending rebuilt snapshot).1 <+:
      earlier := by
    have hrequest := List.prefix_append
      (rebuilt ++ (reconcile_pending_tool_outputs pending rebuilt snapshot).1)
      (pending.filter (keeps rebuilt snapshot))
    rw [h] at hrequest
    apply List.prefix_of_prefix_length_le hrequest (List.prefix_append earlier (item :: later))
    simpa using hlength
  obtain ⟨kept, rfl⟩ := hhead
  rw [List.append_assoc (rebuilt ++ _), List.append_cancel_left_eq] at h
  obtain ⟨before, rest, rfl, rfl, hrest⟩ := List.filter_eq_append_iff.mp h
  obtain ⟨gap, after, rfl, hgap, hkeep, _⟩ := List.filter_eq_cons_iff.mp hrest
  refine ⟨before ++ gap, after, by simp, hkeep, ?_⟩
  have hnone : gap.filter (keeps rebuilt snapshot) = [] := List.filter_eq_nil_iff.mpr hgap
  rw [List.filter_append, hnone, List.append_nil]

theorem join_request {before after : List (ResponseItem β)} {item : ResponseItem β}
    (h : pending = before ++ item :: after) (hkeep : keeps rebuilt snapshot item = true) :
    extend_rebuilt rebuilt pending snapshot =
      (rebuilt ++ (reconcile_pending_tool_outputs pending rebuilt snapshot).1 ++
        before.filter (keeps rebuilt snapshot)) ++
          item :: after.filter (keeps rebuilt snapshot) := by
  rw [extend_rebuilt_eq, filtered_eq]
  subst h
  simp [hkeep]

/-- A kept output has its call before it if it is not one of a tool search, whose call goes
unseen. -/
theorem kept_output_called {item : ResponseItem β} {c : Text} (hitem : item ∈ pending)
    (hid : output_call_id item = some c) (hkeep : keeps rebuilt snapshot item = true) :
    c ∈ called_ids rebuilt ∨ Recovered rebuilt snapshot pending c := by
  by_cases hseen : c ∈ collect_tool_call_ids rebuilt
  · exact .inl (called_of_collected hseen)
  · have hkept : c ∈ collect_tool_call_ids rebuilt ∨ c ∈ collect_tool_call_ids snapshot := by
      simpa [keeps, hid] using hkeep
    exact .inr ⟨hseen, hkept.resolve_left hseen, item, hitem, hid⟩

theorem paired_of_seen (h : CallsAreSeen pending rebuilt snapshot) :
    KeepsOutputsPaired pending rebuilt snapshot := by
  obtain ⟨houtputs, hsearches⟩ := h
  have hloop := reconciled pending rebuilt snapshot
  refine ⟨?_, ?_, hloop.once, ?_⟩
  · intro earlier item later c hsplit hlength hid
    obtain ⟨before, after, hpending, hkeep, rfl⟩ := split_request hsplit hlength
    have hitem : item ∈ pending := by simp [hpending]
    have hcalled : c ∈ called_ids rebuilt ∨ Recovered rebuilt snapshot pending c ∨
        c ∈ called_ids before := by
      rcases tool_output_id_cases hid with houtput | hsearch
      · exact (kept_output_called hitem houtput hkeep).imp_right .inl
      · rcases hsearches before item after c hpending hsearch with hcall | hcall | ⟨hold, hout⟩
        · exact .inl hcall
        · exact .inr (.inr hcall)
        · by_cases hseen : c ∈ collect_tool_call_ids rebuilt
          · exact .inl (called_of_collected hseen)
          · exact .inr (.inl ⟨hseen, hold, hout⟩)
    rw [called_ids_append, called_ids_append, called_kept, List.mem_append, List.mem_append,
      called_missing_iff]
    tauto
  · intro call hcall
    obtain ⟨c, hid⟩ := hloop.are_calls call hcall
    obtain ⟨hnew, _, output, houtput, houtput_id⟩ := called_missing_iff.mp (mem_called hcall hid)
    exact ⟨c, hid, fun hcalled => hnew ((houtputs output houtput c houtput_id).1 hcalled)⟩
  · rw [filtered_eq]
    have howed : pending.filter (owed rebuilt snapshot) =
        (pending.filter (keeps rebuilt snapshot)).filter (owed rebuilt snapshot) := by
      rw [List.filter_filter]
      apply List.filter_congr
      intro item hitem
      cases hid : output_call_id item with
      | none => simp [keeps, hid]
      | some c =>
        obtain ⟨hrebuilt, hsnapshot⟩ := houtputs item hitem c hid
        have hkept : owed rebuilt snapshot item = true → keeps rebuilt snapshot item = true := by
          simp only [owed, tool_output_id_of_output hid, keeps, hid, decide_eq_true_eq]
          rintro (hcalled | hcalled)
          · exact .inl (hrebuilt hcalled)
          · exact hsnapshot hcalled
        rcases howed : owed rebuilt snapshot item with _ | _
        · rfl
        · rw [hkept howed]
          rfl
    rw [howed]
    exact List.filter_sublist

theorem seen_of_paired (h : KeepsOutputsPaired pending rebuilt snapshot) :
    CallsAreSeen pending rebuilt snapshot := by
  refine ⟨?_, ?_⟩
  · intro item hitem c hid
    have hkeep : c ∈ called_ids rebuilt ∨ c ∈ called_ids snapshot →
        c ∈ collect_tool_call_ids rebuilt ∨ c ∈ collect_tool_call_ids snapshot := by
      intro hcalled
      have howed : owed rebuilt snapshot item = true := by
        simp [owed, tool_output_id_of_output hid, hcalled]
      have hkept := h.kept.subset (List.mem_filter.mpr ⟨hitem, howed⟩)
      rw [filtered_eq] at hkept
      simpa [keeps, hid] using (List.mem_filter.mp hkept).2
    refine ⟨?_, fun hcalled => hkeep (.inr hcalled)⟩
    intro hcalled
    by_contra hnew
    have hold := (hkeep (.inl hcalled)).resolve_left hnew
    have hmissing := called_missing_iff.mpr ⟨hnew, hold, item, hitem, hid⟩
    obtain ⟨call, hcall, hcall_id⟩ := List.mem_filterMap.mp hmissing
    obtain ⟨c', hc', hfresh⟩ := h.fresh call hcall
    obtain rfl : c = c' := Option.some.inj (hcall_id.symm.trans hc')
    exact hfresh hcalled
  · intro before item after c hpending hid
    obtain ⟨houtput, htool⟩ := search_is_no_output hid
    have hkeep : keeps rebuilt snapshot item = true := by simp [keeps, houtput]
    have hcalled := h.paired _ item _ c (join_request hpending hkeep) (by simp) htool
    rw [called_ids_append, called_ids_append, called_kept, List.mem_append, List.mem_append,
      called_missing_iff] at hcalled
    rcases hcalled with (hcalled | ⟨_, hold, hout⟩) | hcalled
    · exact .inl hcalled
    · exact .inr (.inr ⟨hold, hout⟩)
    · exact .inr (.inl hcalled)

end request

/-- After a compaction the outputs stay paired with their calls just if no call goes unseen. -/
theorem outputs_stay_paired_iff_calls_seen (pending_outputs rebuilt_history
    previous_input_snapshot : List (ResponseItem β)) :
    KeepsOutputsPaired pending_outputs rebuilt_history previous_input_snapshot ↔
      CallsAreSeen pending_outputs rebuilt_history previous_input_snapshot :=
  ⟨seen_of_paired, paired_of_seen⟩

/-- The output of a tool search is sent without its call, though the snapshot has it. -/
theorem search_output_is_sent_alone :
    ¬ ∀ pending_outputs rebuilt_history previous_input_snapshot : List (ResponseItem Unit),
      KeepsOutputsPaired pending_outputs rebuilt_history previous_input_snapshot := by
  intro hall
  have hpaired := (hall [.ToolSearchOutput (some "s".toList) ()]
    [.Message none "user".toList [.InputText "summary".toList] none none]
    [.ToolSearchCall none (some "s".toList) ()]).paired
      [.Message none "user".toList [.InputText "summary".toList] none none]
      (.ToolSearchOutput (some "s".toList) ()) [] "s".toList rfl (Nat.le_refl 1) rfl
  simp [called_ids, effective_call_id] at hpaired

end Ecode.turn
