-- The ids of a history and the index that finds a record by its id: ids differ,
-- are not zero and lie below the next one, and the index holds their positions.
import Ecode.HistoryMoves

namespace Ecode.history

open registry runs HistoryState

variable {β : Type}

/-! ## What the maps leave alone -/

@[simp] theorem with_id_id (id : Nat) (record : HistoryRecord β) : (record.with_id id).id = id := by
  cases record <;> rfl

@[simp] theorem set_retained_next_id (s : HistoryState β) (id retained : Nat) :
    (s.set_exec_stream_retained id retained).next_id = s.next_id := by
  unfold set_exec_stream_retained
  split <;> rfl

@[simp] theorem set_retained_id_index (s : HistoryState β) (id retained : Nat) :
    (s.set_exec_stream_retained id retained).id_index = s.id_index := by
  unfold set_exec_stream_retained
  split <;> rfl

@[simp] theorem set_retained_records_eq (s : HistoryState β) (id retained : Nat) :
    (s.set_exec_stream_retained id retained).records = s.records := by
  unfold set_exec_stream_retained
  split <;> rfl

@[simp] theorem register_next_id (s : HistoryState β) (record : HistoryRecord β) :
    (s.register_record record).next_id = s.next_id := by
  cases record <;> simp [register_record]

@[simp] theorem remove_retained_next_id (s : HistoryState β) (id : Nat) :
    (s.remove_exec_stream_retained id).next_id = s.next_id := by
  unfold remove_exec_stream_retained
  split_ifs
  · rfl
  · split <;> rfl

@[simp] theorem remove_retained_records (s : HistoryState β) (id : Nat) :
    (s.remove_exec_stream_retained id).records = s.records := by
  unfold remove_exec_stream_retained
  split_ifs
  · rfl
  · split <;> rfl

@[simp] theorem unregister_next_id (s : HistoryState β) (record : HistoryRecord β) :
    (s.unregister_record record).next_id = s.next_id := by
  cases record <;> simp [unregister_record]

@[simp] theorem unregister_records (s : HistoryState β) (record : HistoryRecord β) :
    (s.unregister_record record).records = s.records := by
  cases record <;> simp [unregister_record]

@[simp] theorem rebuild_id_index_records (s : HistoryState β) :
    s.rebuild_id_index.records = s.records := rfl

@[simp] theorem rebuild_id_index_next_id (s : HistoryState β) :
    s.rebuild_id_index.next_id = s.next_id := rfl

@[simp] theorem unregister_all_records (removed : List (HistoryRecord β)) (s : HistoryState β) :
    (removed.foldl unregister_record s).records = s.records := by
  induction removed generalizing s with
  | nil => rfl
  | cons record removed ih => rw [List.foldl_cons, ih, unregister_records]

@[simp] theorem register_all_records (records : List (HistoryRecord β)) (s : HistoryState β) :
    (records.foldl register_record s).records = s.records := by
  induction records generalizing s with
  | nil => rfl
  | cons record records ih => rw [List.foldl_cons, ih, register_records_eq]

@[simp] theorem register_all_next_id (records : List (HistoryRecord β)) (s : HistoryState β) :
    (records.foldl register_record s).next_id = s.next_id := by
  induction records generalizing s with
  | nil => rfl
  | cons record records ih => rw [List.foldl_cons, ih, register_next_id]

theorem restore_records (s : HistoryState β) (snapshot : HistorySnapshot β) :
    (s.restore snapshot).records = dedup_messages [] snapshot.records := by
  unfold restore rebuild_exec_stream_retained_totals rebuild_lookup_maps rebuild_id_index
  dsimp only
  split_ifs
  · simp
  · rfl

theorem restore_next_id (s : HistoryState β) (snapshot : HistorySnapshot β) :
    (s.restore snapshot).next_id = snapshot.next_id := by
  unfold restore rebuild_exec_stream_retained_totals rebuild_lookup_maps rebuild_id_index
  dsimp only
  split_ifs
  · simp
  · rfl

theorem dedup_messages_sublist (seen_streams : List Text) (records : List (HistoryRecord β)) :
    (dedup_messages seen_streams records).Sublist records := by
  induction records generalizing seen_streams with
  | nil => exact List.Sublist.refl _
  | cons record records ih =>
    cases record with
    | AssistantMessage state =>
      simp only [dedup_messages]
      split
      · split
        · exact (ih _).cons _
        · exact (ih _).cons_cons _
      · exact (ih _).cons_cons _
    | _ => exact (ih _).cons_cons _

/-- A record before and after the global limit: only the streams of a command get shorter. -/
inductive Pruned : HistoryRecord β → HistoryRecord β → Prop
  | same (record : HistoryRecord β) : Pruned record record
  | exec (exec : ExecRecord β) (stdout_chunks stderr_chunks : List ExecStreamChunk) :
    stream_len stdout_chunks ≤ stream_len exec.stdout_chunks →
    stream_len stderr_chunks ≤ stream_len exec.stderr_chunks →
    Pruned (.Exec exec) (.Exec { exec with stdout_chunks, stderr_chunks })

theorem enforce_records_pruned {bytes_to_drop total total' : Nat} {by_id by_id' : Lookup Nat Nat}
    {records records' : List (HistoryRecord β)}
    (h : enforce_records bytes_to_drop by_id total records = some (records', by_id', total')) :
    List.Forall₂ Pruned records records' := by
  induction records generalizing bytes_to_drop by_id total records' by_id' total' with
  | nil =>
    cases h
    exact .nil
  | cons record records ih =>
    cases record with
    | Exec exec =>
      simp only [enforce_records] at h
      split_ifs at h
      · cases h
        exact List.forall₂_same.mpr fun r _ => .same r
      · obtain ⟨⟨rest, b, n⟩, hrest, h⟩ := Option.bind_eq_some_iff.mp h
        cases h
        exact .cons (.same _) (ih hrest)
      · obtain ⟨out, hout, h⟩ := Option.bind_eq_some_iff.mp h
        obtain ⟨err, herr, h⟩ := Option.bind_eq_some_iff.mp h
        obtain ⟨⟨rest, b, n⟩, hrest, h⟩ := Option.bind_eq_some_iff.mp h
        cases h
        exact .cons (.exec exec out err (prune_exec_stream_len hout) (prune_exec_stream_len herr))
          (ih hrest)
    | _ =>
      obtain ⟨⟨rest, b, n⟩, hrest, h⟩ := Option.bind_eq_some_iff.mp h
      cases h
      exact .cons (.same _) (ih hrest)

/-- The global limit prunes records and counts bytes, and does nothing else. -/
theorem enforce_some {s s' : HistoryState β} (h : s.enforce_exec_stream_global_limit = some s') :
    List.Forall₂ Pruned s.records s'.records ∧
      ∃ by_id total, s' = { s with
        records := s'.records
        exec_stream_retained_by_id := by_id
        exec_stream_retained_total_bytes := total } := by
  unfold enforce_exec_stream_global_limit at h
  split at h
  · obtain rfl := Option.some.inj h
    exact ⟨List.forall₂_same.mpr fun r _ => .same r, _, _, rfl⟩
  · obtain ⟨⟨records, by_id, total⟩, hrecords, h⟩ := Option.bind_eq_some_iff.mp h
    obtain rfl := Option.some.inj h
    exact ⟨enforce_records_pruned hrecords, by_id, total, rfl⟩

theorem pruned_ids {records records' : List (HistoryRecord β)}
    (h : List.Forall₂ Pruned records records') :
    records'.map HistoryRecord.id = records.map HistoryRecord.id := by
  induction h with
  | nil => rfl
  | cons hr _ ih =>
    rw [List.map_cons, List.map_cons, ih]
    cases hr <;> rfl

/-! ## The ids -/

/-- Ids that differ, are not zero and lie below the next one. -/
structure IdsOk (ids : List Nat) (next_id : Nat) : Prop where
  nodup : ids.Nodup
  not_zero : ∀ id ∈ ids, id ≠ 0
  below : ∀ id ∈ ids, id < next_id
  first : 1 ≤ next_id
  bounded : next_id ≤ U64_MAX

def HistoryState.ids (s : HistoryState β) : List Nat := s.records.map HistoryRecord.id

theorem IdsOk.sublist {ids ids' : List Nat} {next_id : Nat} (h : IdsOk ids next_id)
    (hsub : ids'.Sublist ids) : IdsOk ids' next_id :=
  ⟨h.nodup.sublist hsub, fun id hid => h.not_zero id (hsub.subset hid),
    fun id hid => h.below id (hsub.subset hid), h.first, h.bounded⟩

theorem IdsOk.insert {ids : List Nat} {next_id : Nat} (h : IdsOk ids next_id)
    (hroom : next_id < U64_MAX) {index : Nat} (hindex : index ≤ ids.length) :
    IdsOk (ids.insertIdx index next_id) (saturating_add next_id 1) := by
  have hperm : (ids.insertIdx index next_id).Perm (next_id :: ids) :=
    List.perm_insertIdx next_id ids hindex
  have hnext : saturating_add next_id 1 = next_id + 1 := by
    unfold saturating_add
    omega
  have hfresh : next_id ∉ ids := fun hmem => absurd (h.below _ hmem) (lt_irrefl _)
  rw [hnext]
  refine ⟨?_, ?_, ?_, by omega, by omega⟩
  · rw [hperm.nodup_iff]
    exact List.nodup_cons.mpr ⟨hfresh, h.nodup⟩
  · intro id hid
    rcases List.mem_cons.mp (hperm.mem_iff.mp hid) with rfl | hid
    · have := h.first
      omega
    · exact h.not_zero id hid
  · intro id hid
    rcases List.mem_cons.mp (hperm.mem_iff.mp hid) with rfl | hid
    · omega
    · have := h.below id hid
      omega

theorem le_foldr_max {ids : List Nat} {id : Nat} (h : id ∈ ids) : id ≤ ids.foldr max 0 := by
  induction ids with
  | nil => cases h
  | cons a ids ih =>
    rw [List.foldr_cons]
    rcases List.mem_cons.mp h with rfl | h
    · omega
    · have := ih h
      omega

theorem foldr_max_lt {ids : List Nat} {n : Nat} (h : ∀ id ∈ ids, id < n) (hn : 1 ≤ n) :
    ids.foldr max 0 < n := by
  induction ids with
  | nil => exact hn
  | cons a ids ih =>
    have ha := h a List.mem_cons_self
    have := ih fun id hid => h id (List.mem_cons_of_mem _ hid)
    rw [List.foldr_cons]
    omega

/-- The ids of a sublist, with the next id that follows the greatest of them. -/
theorem IdsOk.recompute {ids ids' : List Nat} {next_id : Nat} (h : IdsOk ids next_id)
    (hsub : ids'.Sublist ids) : IdsOk ids' (saturating_add (ids'.foldr max 0) 1) := by
  have h' := h.sublist hsub
  have hmax := foldr_max_lt h'.below h'.first
  have hbounded := h.bounded
  have hnext : saturating_add (ids'.foldr max 0) 1 = ids'.foldr max 0 + 1 := by
    unfold saturating_add
    omega
  rw [hnext]
  refine ⟨h'.nodup, h'.not_zero, ?_, by omega, by omega⟩
  intro id hid
  have := le_foldr_max hid
  omega

theorem ids_set {records : List (HistoryRecord β)} {index : Nat} {old : HistoryRecord β}
    (h : records[index]? = some old) (new : HistoryRecord β) (hid : new.id = old.id) :
    (records.set index new).map HistoryRecord.id = records.map HistoryRecord.id := by
  obtain ⟨hlt, rfl⟩ := List.getElem?_eq_some_iff.mp h
  rw [List.map_set, hid]
  apply List.ext_getElem (by simp)
  intro i h₁ h₂
  rw [List.getElem_set]
  split
  · rename_i heq
    subst heq
    simp
  · rfl

/-- What `truncate_after` can do: it clears the history, leaves it as it is, or cuts it. -/
theorem truncate_after_cases (s : HistoryState β) (id : Nat) :
    (id = 0 ∧ (s.truncate_after id).1 = { s with
      records := [], exec_call_lookup := ∅, tool_call_lookup := ∅, stream_lookup := ∅
      next_id := 1, exec_stream_retained_total_bytes := 0, exec_stream_retained_by_id := ∅ }) ∨
    (s.truncate_after id).1 = s ∨
    ∃ n, (s.truncate_after id).1 = ((s.records.drop n).foldl unregister_record
      { s with records := s.records.take n }).recompute_next_id.rebuild_id_index ∧
      (s.truncate_after id).2 = s.records.drop n := by
  unfold truncate_after
  split_ifs with hid
  · exact .inl ⟨hid, rfl⟩
  · split
    · exact .inr (.inl rfl)
    · split
      · exact .inr (.inl rfl)
      · exact .inr (.inr ⟨_, rfl, rfl⟩)

@[simp] theorem remove_event_next_id (s : HistoryState β) (index : Nat) :
    (s.remove_event index).1.next_id = s.next_id := by
  unfold remove_event
  split
  · simp
  · rfl

/-- What a move needs for the ids: room for a new one, and a snapshot whose ids are in order. -/
def KeepsIds (s : HistoryState β) : Move β → Prop
  | .insert _ _ => s.next_id < U64_MAX
  | .restore snapshot =>
    IdsOk ((dedup_messages [] snapshot.records).map HistoryRecord.id) snapshot.next_id
  | _ => True

theorem truncate_ids_ok {s : HistoryState β} (h : IdsOk s.ids s.next_id) (id : Nat) :
    IdsOk (s.truncate_after id).1.ids (s.truncate_after id).1.next_id := by
  rcases truncate_after_cases s id with ⟨_, heq⟩ | heq | ⟨n, heq, _⟩
  · rw [heq]
    exact ⟨List.nodup_nil, by simp [HistoryState.ids], by simp [HistoryState.ids], le_refl 1,
      by simp [U64_MAX]⟩
  · rw [heq]
    exact h
  · rw [heq]
    have hsub : ((s.records.take n).map HistoryRecord.id).Sublist s.ids :=
      (List.take_sublist n s.records).map _
    simpa [HistoryState.ids, recompute_next_id] using h.recompute hsub

theorem make_ids_ok {s s' : HistoryState β} {m : Move β} (h : IdsOk s.ids s.next_id)
    (hfit : Fits s m) (hkeep : KeepsIds s m) (hmake : make s m = some s') :
    IdsOk s'.ids s'.next_id := by
  cases m with
  | insert index record =>
    obtain rfl := Option.some.inj hmake
    have hle : min index s.records.length ≤ s.ids.length := by simp [HistoryState.ids]
    simpa [insert_event, next_history_id, HistoryState.ids, List.map_insertIdx]
      using h.insert hkeep hle
  | replace index record =>
    obtain rfl := Option.some.inj hmake
    unfold replace_event
    split
    · rename_i existing hget
      have hids := ids_set hget _ (with_id_id existing.id record)
      simpa [HistoryState.ids, hids] using h
    · exact h
  | remove index =>
    obtain rfl := Option.some.inj hmake
    unfold remove_event
    split
    · have hsub : ((s.records.eraseIdx index).map HistoryRecord.id).Sublist s.ids :=
        (List.eraseIdx_sublist s.records index).map _
      simpa [HistoryState.ids] using h.sublist hsub
    · exact h
  | refresh index message =>
    obtain rfl := Option.some.inj hmake
    obtain ⟨old, hget, hid⟩ := hfit
    have hids := ids_set hget (.AssistantMessage message) hid.symm
    simpa [HistoryState.ids, hids] using h
  | output index exec =>
    obtain rfl := Option.some.inj hmake
    obtain ⟨old, hget, hid, _⟩ := hfit
    have hids := ids_set hget (.Exec exec) hid.symm
    simpa [HistoryState.ids, hids] using h
  | enforce =>
    obtain ⟨hpruned, by_id, total, hs'⟩ := enforce_some hmake
    have hnext : s'.next_id = s.next_id := by rw [hs']
    rw [hnext]
    unfold HistoryState.ids
    rw [pruned_ids hpruned]
    exact h
  | truncate id =>
    obtain rfl := Option.some.inj hmake
    exact truncate_ids_ok h id
  | restore snapshot =>
    obtain rfl := Option.some.inj hmake
    unfold HistoryState.ids
    rw [restore_records, restore_next_id]
    exact hkeep

theorem keeps_ids_later {s t : HistoryState β} {m m' : Move β} (hfollows : Follows m m')
    (hmake : make s m = some t) (hkeep : KeepsIds s m') : KeepsIds t m' := by
  cases hfollows with
  | message_added index at_index record =>
    obtain rfl := Option.some.inj hmake
    simpa [KeepsIds] using hkeep
  | _ => trivial

/-- The snapshot of a history in order is one that can be restored. -/
theorem snapshot_keeps_ids {s t : HistoryState β} (h : IdsOk s.ids s.next_id) :
    KeepsIds t (.restore s.snapshot) :=
  h.sublist ((dedup_messages_sublist [] s.records).map _)

theorem new_ids_ok : IdsOk (HistoryState.new : HistoryState β).ids
    (HistoryState.new : HistoryState β).next_id :=
  ⟨List.nodup_nil, by simp [HistoryState.ids, HistoryState.new],
    by simp [HistoryState.ids, HistoryState.new], le_refl 1, by simp [HistoryState.new, U64_MAX]⟩

/-! ## The index -/

/-- The index is the one that `rebuild_id_index` gives. -/
def Indexed (s : HistoryState β) : Prop :=
  s.id_index = positions (· ≠ 0) s.ids

/-- What a move needs for the index: only an empty history may be cleared. -/
def KeepsIndex (s : HistoryState β) : Move β → Prop
  | .truncate id => id = 0 → s.records = []
  | _ => True

theorem make_indexed {s s' : HistoryState β} {m : Move β} (h : Indexed s) (hfit : Fits s m)
    (hkeep : KeepsIndex s m) (hmake : make s m = some s') : Indexed s' := by
  cases m with
  | insert index record =>
    obtain rfl := Option.some.inj hmake
    rfl
  | replace index record =>
    obtain rfl := Option.some.inj hmake
    unfold replace_event
    split
    · rfl
    · exact h
  | remove index =>
    obtain rfl := Option.some.inj hmake
    unfold remove_event
    split
    · rfl
    · exact h
  | refresh index message =>
    obtain rfl := Option.some.inj hmake
    obtain ⟨old, hget, hid⟩ := hfit
    have hids := ids_set hget (.AssistantMessage message) hid.symm
    simpa [Indexed, HistoryState.ids, hids] using h
  | output index exec =>
    obtain rfl := Option.some.inj hmake
    obtain ⟨old, hget, hid, _⟩ := hfit
    have hids := ids_set hget (.Exec exec) hid.symm
    simpa [Indexed, HistoryState.ids, hids] using h
  | enforce =>
    obtain ⟨hpruned, by_id, total, hs'⟩ := enforce_some hmake
    have hindex : s'.id_index = s.id_index := by rw [hs']
    unfold Indexed HistoryState.ids
    rw [hindex, pruned_ids hpruned]
    exact h
  | truncate id =>
    obtain rfl := Option.some.inj hmake
    rcases truncate_after_cases s id with ⟨hid, heq⟩ | heq | ⟨n, heq, _⟩
    · rw [heq]
      -- the branch that clears the history does not rebuild the index
      simpa [Indexed, HistoryState.ids, hkeep hid] using h
    · rw [heq]
      exact h
    · rw [heq]
      rfl
  | restore snapshot =>
    obtain rfl := Option.some.inj hmake
    rfl

/-- The index finds exactly the records of the history. -/
theorem index_of_iff {s : HistoryState β} (hids : IdsOk s.ids s.next_id) (h : Indexed s)
    (id i : Nat) :
    s.index_of id = some i ↔ ∃ record, s.records[i]? = some record ∧ record.id = id := by
  have hat : s.ids[i]? = some id ↔ ∃ record, s.records[i]? = some record ∧ record.id = id := by
    rw [HistoryState.ids, List.getElem?_map, Option.map_eq_some_iff]
  rw [← hat]
  have hpos : ∀ j ∈ s.ids, (decide (j ≠ 0)) = true := fun j hj => by
    simpa using hids.not_zero j hj
  have hlookup := lookup_positions hids.nodup hpos id i
  rw [← h] at hlookup
  unfold index_of
  split
  · rename_i hzero
    subst hzero
    constructor
    · intro hnone
      cases hnone
    · intro hget
      exact absurd rfl (hids.not_zero 0 (List.mem_of_getElem? hget))
  · exact hlookup

/-! ## Every run -/

/-- Records are found by their ids, and ids differ, are not zero and lie below the next one. -/
def identity_holds (s : HistoryState β) : Prop :=
  (∀ id i, s.index_of id = some i ↔ ∃ record, s.records[i]? = some record ∧ record.id = id) ∧
  s.ids.Nodup ∧ ∀ id ∈ s.ids, id ≠ 0 ∧ id < s.next_id

/-- A step that takes an id takes it below the last one, a restored snapshot has its ids in order,
and only an empty history is cleared with `truncate_after(HistoryId::ZERO)`. -/
def identity_step (s : HistoryState β) (op : Op β) : Prop :=
  ∀ ms, moves s op = some ms → ∀ m ∈ ms, KeepsIds s m ∧ KeepsIndex s m

theorem keeps_index_later {t : HistoryState β} {m m' : Move β} (hfollows : Follows m m') :
    KeepsIndex t m' := by
  cases hfollows <;> trivial

theorem indexed_in_every_run {s : HistoryState β}
    (h : Reached step HistoryState.new identity_step s) :
    IdsOk s.ids s.next_id ∧ Indexed s := by
  apply run_keeps (Q := fun s m => KeepsIds s m ∧ KeepsIndex s m)
    (I := fun s => IdsOk s.ids s.next_id ∧ Indexed s) ⟨new_ids_ok, rfl⟩ _ _ _ h
  · intro s m s' hs hfit hq hmake
    exact ⟨make_ids_ok hs.1 hfit hq.1 hmake, make_indexed hs.2 hfit hq.2 hmake⟩
  · intro s m m' t _ _ _ hfollows hmake hq
    exact ⟨keeps_ids_later hfollows hmake hq.1, keeps_index_later hfollows⟩
  · intro s op _ hop
    exact hop

/-- In every run of such steps the records are found by their ids. -/
theorem identity_holds_in_every_run {s : HistoryState β}
    (h : Reached step HistoryState.new identity_step s) : identity_holds s := by
  obtain ⟨hids, hindexed⟩ := indexed_in_every_run h
  refine ⟨index_of_iff hids hindexed, hids.nodup, ?_⟩
  intro id hid
  exact ⟨hids.not_zero id hid, hids.below id hid⟩

/-- A notice. -/
def notice : HistoryRecord Unit := .Other .Notice 0 ()

/-- After `push` and `truncate_after` of the id that it gave. -/
theorem identity_holds_after_push :
    ∃ s s' : HistoryState Unit, step HistoryState.new (.push notice) = some s ∧
      step s (.truncate_after 1) = some s' ∧ s'.records.length = 1 ∧ identity_holds s' := by
  refine ⟨_, _, rfl, rfl, by decide +kernel, identity_holds_in_every_run
    (.step (a := .truncate_after 1) (.step (a := .push notice) .start ?_ rfl) ?_ rfl)⟩
  · intro ms hms m hm
    obtain rfl := Option.some.inj hms
    obtain rfl := List.mem_singleton.mp hm
    exact ⟨by simp [KeepsIds, HistoryState.new, U64_MAX], trivial⟩
  · intro ms hms m hm
    obtain rfl := Option.some.inj hms
    obtain rfl := List.mem_singleton.mp hm
    exact ⟨trivial, by simp [KeepsIndex]⟩

/-- After `push` and `truncate_after(HistoryId::ZERO)` the index still finds the record that is
gone. -/
theorem cleared_history_keeps_its_index :
    ¬ ∀ s : HistoryState Unit, Reached step HistoryState.new (fun _ _ => True) s →
      identity_holds s := by
  intro hall
  have hs := hall _ (.step (.step .start (a := .push notice) trivial rfl)
    (a := .truncate_after 0) trivial rfl)
  have hindex := (hs.1 1 0).mp (by decide +kernel)
  obtain ⟨record, hget, _⟩ := hindex
  cases hget

end Ecode.history
