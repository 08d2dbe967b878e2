-- The count of the bytes that the streams of commands keep in memory: a ledger
-- with an entry for every command, while no byte position passes the last one.
import Ecode.HistoryLookups
import Ecode.Ledger

namespace Ecode.history

open registry runs ledger HistoryState

variable {β : Type}

/-! ## The ends and the entries of the records -/

/-- The bytes that the two streams of a command keep. -/
def kept_bytes (exec : ExecRecord β) : Nat :=
  retained_stream_len exec.stdout_chunks + retained_stream_len exec.stderr_chunks

/-- The entry of a command in the ledger. -/
def entry : HistoryRecord β → Option (Nat × Nat)
  | .Exec exec => some (exec.id, kept_bytes exec)
  | _ => none

def entries (records : List (HistoryRecord β)) : List (Nat × Nat) := records.filterMap entry

/-- Where the two streams of a command end. -/
def stream_end : HistoryRecord β → Nat
  | .Exec exec => stream_len exec.stdout_chunks + stream_len exec.stderr_chunks
  | _ => 0

def ends (records : List (HistoryRecord β)) : Nat := (records.map stream_end).sum

@[simp] theorem stream_end_with_id (id : Nat) (record : HistoryRecord β) :
    stream_end (record.with_id id) = stream_end record := by
  cases record <;> rfl

theorem kept_bytes_le (exec : ExecRecord β) : kept_bytes exec ≤ stream_end (.Exec exec) := by
  have hout := retained_le_stream_len exec.stdout_chunks
  have herr := retained_le_stream_len exec.stderr_chunks
  simp only [kept_bytes, stream_end]
  omega

/-- Below the last byte position the count of a record is exact. -/
theorem retained_eq {exec : ExecRecord β} (h : stream_end (.Exec exec) ≤ U64_MAX) :
    retained_exec_record_bytes exec = kept_bytes exec := by
  have hkept := kept_bytes_le exec
  unfold retained_exec_record_bytes saturating_add
  unfold kept_bytes at *
  omega

theorem ends_perm {records records' : List (HistoryRecord β)} (h : records.Perm records') :
    ends records = ends records' :=
  (h.map stream_end).sum_eq

theorem entries_sum_le (records : List (HistoryRecord β)) :
    ((entries records).map Prod.snd).sum ≤ ends records := by
  induction records with
  | nil => simp [entries, ends]
  | cons record records ih =>
    simp only [entries, ends, List.map_cons, List.sum_cons] at ih ⊢
    cases record with
    | Exec exec =>
      have hkept := kept_bytes_le exec
      simp only [List.filterMap_cons, entry, List.map_cons, List.sum_cons]
      omega
    | _ =>
      simp only [List.filterMap_cons, entry]
      omega

theorem mem_entries_fst {records : List (HistoryRecord β)} {id : Nat}
    (h : id ∈ (entries records).map Prod.fst) : id ∈ records.map HistoryRecord.id := by
  obtain ⟨⟨id', n⟩, hmem, rfl⟩ := List.mem_map.mp h
  obtain ⟨record, hrecord, hentry⟩ := List.mem_filterMap.mp hmem
  cases record with
  | Exec exec =>
    cases hentry
    exact List.mem_map.mpr ⟨_, hrecord, rfl⟩
  | _ => cases hentry

theorem erase_perm {records : List (HistoryRecord β)} {index : Nat} {old : HistoryRecord β}
    (h : records[index]? = some old) : records.Perm (old :: records.eraseIdx index) := by
  obtain ⟨hlt, rfl⟩ := List.getElem?_eq_some_iff.mp h
  exact (List.getElem_cons_eraseIdx_perm hlt).symm

theorem set_perm {records : List (HistoryRecord β)} {index : Nat} {old : HistoryRecord β}
    (h : records[index]? = some old) (new : HistoryRecord β) :
    (records.set index new).Perm (new :: records.eraseIdx index) := by
  obtain ⟨hlt, rfl⟩ := List.getElem?_eq_some_iff.mp h
  exact List.set_perm_cons_eraseIdx hlt new

theorem ends_set {records : List (HistoryRecord β)} {index : Nat} {old : HistoryRecord β}
    (h : records[index]? = some old) (new : HistoryRecord β) :
    ends (records.set index new) + stream_end old = ends records + stream_end new := by
  rw [ends_perm (erase_perm h), ends_perm (set_perm h new)]
  simp only [ends, List.map_cons, List.sum_cons]
  omega

theorem ends_sublist {records records' : List (HistoryRecord β)} (h : records'.Sublist records) :
    ends records' ≤ ends records :=
  (h.map stream_end).sum_le_sum fun _ _ => Nat.zero_le _

theorem ends_pruned {records records' : List (HistoryRecord β)}
    (h : List.Forall₂ Pruned records records') : ends records' ≤ ends records := by
  induction h with
  | nil => exact le_refl _
  | cons hr _ ih =>
    simp only [ends, List.map_cons, List.sum_cons] at ih ⊢
    cases hr with
    | same => omega
    | exec exec out err hout herr =>
      simp only [stream_end]
      omega

/-! ## Registering in the ledger -/

/-- The map and the total of the history against a list of entries. -/
def Counts (s : HistoryState β) (es : List (Nat × Nat)) : Prop :=
  Balanced s.exec_stream_retained_total_bytes s.exec_stream_retained_by_id es

theorem entries_cons (record : HistoryRecord β) (records : List (HistoryRecord β)) :
    entries (record :: records) = (entry record).toList ++ entries records := by
  unfold entries
  rw [List.filterMap_cons]
  cases entry record <;> rfl

theorem entries_perm {records records' : List (HistoryRecord β)} (h : records.Perm records') :
    (entries records).Perm (entries records') :=
  h.filterMap entry

/-- The way the total is moved from one amount to another is exact below the last position. -/
theorem settle_eq {total prev n : Nat} (hprev : prev ≤ total)
    (hroom : total - prev + n ≤ U64_MAX) :
    (if n > prev then saturating_add total (n - prev) else total - (prev - n)) =
      total - prev + n := by
  unfold saturating_add
  split <;> omega

theorem set_retained_post {s : HistoryState β} {es : List (Nat × Nat)} {id n : Nat}
    (h : Counts s es) (hid : id ≠ 0) (hfresh : id ∉ es.map Prod.fst)
    (hroom : (es.map Prod.snd).sum + n ≤ U64_MAX) :
    Counts (s.set_exec_stream_retained id n) ((id, n) :: es) := by
  have hnone : s.exec_stream_retained_by_id.lookup id = none := h.lookup_none hfresh
  have hsettle : (if n > 0 then saturating_add s.exec_stream_retained_total_bytes (n - 0)
      else s.exec_stream_retained_total_bytes - (0 - n)) =
      s.exec_stream_retained_total_bytes - 0 + n := by
    apply settle_eq (Nat.zero_le _)
    rw [h.total_eq]
    omega
  unfold Counts
  simp only [set_exec_stream_retained, hid, if_false, hnone, Option.getD_none]
  rw [hsettle]
  exact h.post hfresh

theorem set_retained_amend {s : HistoryState β} {es : List (Nat × Nat)} {id prev n : Nat}
    (h : Counts s ((id, prev) :: es)) (hid : id ≠ 0)
    (hroom : (es.map Prod.snd).sum + n ≤ U64_MAX) :
    Counts (s.set_exec_stream_retained id n) ((id, n) :: es) := by
  have hprev : s.exec_stream_retained_by_id.lookup id = some prev := h.lookup_head
  have htotal := h.total_eq
  rw [List.map_cons, List.sum_cons] at htotal
  have hsettle := settle_eq (n := n) h.prev_le (by omega)
  unfold Counts
  simp only [set_exec_stream_retained, hid, if_false, hprev, Option.getD_some]
  rw [hsettle]
  exact h.amend

theorem remove_retained_close {s : HistoryState β} {es : List (Nat × Nat)} {id prev : Nat}
    (h : Counts s ((id, prev) :: es)) (hid : id ≠ 0) :
    Counts (s.remove_exec_stream_retained id) es := by
  have hprev : s.exec_stream_retained_by_id.lookup id = some prev := h.lookup_head
  unfold Counts
  simp only [remove_exec_stream_retained, hid, if_false, hprev]
  exact h.close

/-- Registering a record with an id of its own adds its entry. -/
theorem register_counts {s : HistoryState β} {es : List (Nat × Nat)} {record : HistoryRecord β}
    (h : Counts s es) (hid : record.id ≠ 0) (hfresh : record.id ∉ es.map Prod.fst)
    (hroom : (es.map Prod.snd).sum + stream_end record ≤ U64_MAX) :
    Counts (s.register_record record) ((entry record).toList ++ es) := by
  cases record with
  | Exec exec =>
    have hkept := kept_bytes_le exec
    simp only [register_record, entry, Option.toList_some, List.singleton_append]
    rw [retained_eq (by omega)]
    exact set_retained_post (s := { s with exec_call_lookup := _ }) h hid hfresh (by omega)
  | _ => exact h

/-- Unregistering a record takes its entry out. -/
theorem unregister_counts {s : HistoryState β} {es : List (Nat × Nat)} {record : HistoryRecord β}
    (h : Counts s ((entry record).toList ++ es)) (hid : record.id ≠ 0) :
    Counts (s.unregister_record record) es := by
  cases record with
  | Exec exec => exact remove_retained_close (s := { s with exec_call_lookup := _ }) h hid
  | _ => exact h

theorem unregister_all_counts {removed : List (HistoryRecord β)} {s : HistoryState β}
    {es : List (Nat × Nat)} (h : Counts s (entries removed ++ es))
    (hids : ∀ record ∈ removed, record.id ≠ 0) :
    Counts (removed.foldl unregister_record s) es := by
  induction removed generalizing s with
  | nil => exact h
  | cons record removed ih =>
    rw [entries_cons, List.append_assoc] at h
    exact ih (unregister_counts h (hids record List.mem_cons_self))
      fun r hr => hids r (List.mem_cons_of_mem _ hr)

/-! ## The global limit -/

theorem entries_exec (before : List (Nat × Nat)) (exec : ExecRecord β)
    (records : List (HistoryRecord β)) :
    before ++ entries (.Exec exec :: records) =
      (before ++ [(exec.id, kept_bytes exec)]) ++ entries records := by
  rw [entries_cons, List.append_assoc]
  rfl

theorem sum_concat_entry (before : List (Nat × Nat)) (e : Nat × Nat) :
    ((before ++ [e]).map Prod.snd).sum = (before.map Prod.snd).sum + e.2 := by
  simp

/-- The entry of the command that the loop is at is its own. -/
theorem lookup_at_loop {total : Nat} {by_id : Lookup Nat Nat} {before : List (Nat × Nat)}
    {exec : ExecRecord β} {records : List (HistoryRecord β)}
    (hb : Balanced total by_id (before ++ entries (.Exec exec :: records))) :
    Balanced total by_id ((exec.id, kept_bytes exec) :: (before ++ entries records)) := by
  apply hb.perm
  rw [entries_cons]
  exact List.perm_middle

/-- A command with fewer bytes moves its entry, and the total by as much. -/
theorem settle_at_loop {total : Nat} {by_id : Lookup Nat Nat} {before : List (Nat × Nat)}
    {exec exec' : ExecRecord β} {records : List (HistoryRecord β)}
    (hb : Balanced total by_id (before ++ entries (.Exec exec :: records)))
    (hroom : (before.map Prod.snd).sum + ends (.Exec exec :: records) ≤ U64_MAX)
    (hid : exec'.id = exec.id) (hend : stream_end (.Exec exec') ≤ stream_end (.Exec exec)) :
    retained_exec_record_bytes exec' = kept_bytes exec' ∧
      (if kept_bytes exec' > kept_bytes exec then
        saturating_add total (kept_bytes exec' - kept_bytes exec)
        else total - (kept_bytes exec - kept_bytes exec')) =
          total - kept_bytes exec + kept_bytes exec' ∧
      Balanced (total - kept_bytes exec + kept_bytes exec') (by_id.insert exec.id (kept_bytes exec'))
        ((before ++ [(exec'.id, kept_bytes exec')]) ++ entries records) ∧
      ((before ++ [(exec'.id, kept_bytes exec')]).map Prod.snd).sum + ends records ≤ U64_MAX := by
  have hends : ends (.Exec exec :: records) = stream_end (.Exec exec) + ends records := rfl
  have hmoved := lookup_at_loop hb
  have hkept := kept_bytes_le exec
  have hkept' := kept_bytes_le exec'
  have hrestsum := entries_sum_le records
  have htotal := hmoved.total_eq
  simp only [List.map_cons, List.sum_cons, List.map_append, List.sum_append] at htotal
  refine ⟨retained_eq (by omega), settle_eq hmoved.prev_le (by omega), ?_, ?_⟩
  · apply hmoved.amend.perm
    rw [hid, List.append_assoc]
    exact List.perm_middle.symm
  · rw [sum_concat_entry]
    omega

/-- The loop keeps the ledger: the entries before the record it is at, and those from it on. -/
theorem enforce_records_counts {bytes_to_drop total total' : Nat} {by_id by_id' : Lookup Nat Nat}
    {records records' : List (HistoryRecord β)} (before : List (Nat × Nat))
    (h : enforce_records bytes_to_drop by_id total records = some (records', by_id', total'))
    (hb : Balanced total by_id (before ++ entries records))
    (hroom : (before.map Prod.snd).sum + ends records ≤ U64_MAX) :
    Balanced total' by_id' (before ++ entries records') := by
  induction records generalizing bytes_to_drop by_id total records' by_id' total' before with
  | nil =>
    cases h
    exact hb
  | cons record records ih =>
    have hends : ends (record :: records) = stream_end record + ends records := rfl
    cases record with
    | Exec exec =>
      have hkept := kept_bytes_le exec
      simp only [enforce_records] at h
      split_ifs at h
      · cases h
        exact hb
      · obtain ⟨⟨rest, b, n⟩, hrest, h⟩ := Option.bind_eq_some_iff.mp h
        cases h
        rw [entries_exec] at hb ⊢
        refine ih _ hrest hb ?_
        rw [sum_concat_entry]
        omega
      · obtain ⟨out, hout, h⟩ := Option.bind_eq_some_iff.mp h
        obtain ⟨err, herr, h⟩ := Option.bind_eq_some_iff.mp h
        obtain ⟨⟨rest, b, n⟩, hrest, h⟩ := Option.bind_eq_some_iff.mp h
        cases h
        have hlen : stream_end (.Exec { exec with stdout_chunks := out, stderr_chunks := err }) ≤
            stream_end (.Exec exec) :=
          Nat.add_le_add (prune_exec_stream_len hout) (prune_exec_stream_len herr)
        have hid : ({ exec with stdout_chunks := out, stderr_chunks := err } : ExecRecord β).id =
            exec.id := rfl
        obtain ⟨hretained, hsettled, hbalanced, hfits⟩ := settle_at_loop hb hroom hid hlen
        simp only [(lookup_at_loop hb).lookup_head, hretained, Option.getD_some] at hrest
        rw [hsettled] at hrest
        rw [entries_exec]
        exact ih _ hrest hbalanced hfits
    | _ =>
      obtain ⟨⟨rest, b, n⟩, hrest, h⟩ := Option.bind_eq_some_iff.mp h
      cases h
      simp only [entries_cons, entry, Option.toList_none, List.nil_append] at hb ⊢
      exact ih before hrest hb (by omega)

theorem enforce_counts {s s' : HistoryState β} (h : s.enforce_exec_stream_global_limit = some s')
    (hb : Counts s (entries s.records)) (hroom : ends s.records ≤ U64_MAX) :
    Counts s' (entries s'.records) := by
  unfold enforce_exec_stream_global_limit at h
  split at h
  · obtain rfl := Option.some.inj h
    exact hb
  · obtain ⟨⟨records, by_id, total⟩, hrecords, h⟩ := Option.bind_eq_some_iff.mp h
    obtain rfl := Option.some.inj h
    exact enforce_records_counts [] hrecords hb (by simpa using hroom)

/-! ## Restored totals -/

theorem restore_counts_eq (s : HistoryState β) (snapshot : HistorySnapshot β) :
    ((s.restore snapshot).exec_stream_retained_total_bytes,
      (s.restore snapshot).exec_stream_retained_by_id) =
    (dedup_messages [] snapshot.records).foldl (fun (acc : Nat × Lookup Nat Nat) record =>
      match record with
      | .Exec exec =>
        if exec.id = 0 then acc
        else (saturating_add acc.1 (retained_exec_record_bytes exec),
          acc.2.insert exec.id (retained_exec_record_bytes exec))
      | _ => acc) (0, ∅) := by
  rw [← restore_records s snapshot]
  rfl

theorem rebuild_counts (records : List (HistoryRecord β)) (before : List (Nat × Nat))
    (acc : Nat × Lookup Nat Nat) (hb : Balanced acc.1 acc.2 before)
    (hids : ∀ record ∈ records, record.id ≠ 0)
    (hnodup : (before.map Prod.fst ++ records.map HistoryRecord.id).Nodup)
    (hroom : (before.map Prod.snd).sum + ends records ≤ U64_MAX) :
    let counted := records.foldl (fun (acc : Nat × Lookup Nat Nat) record =>
      match record with
      | .Exec exec =>
        if exec.id = 0 then acc
        else (saturating_add acc.1 (retained_exec_record_bytes exec),
          acc.2.insert exec.id (retained_exec_record_bytes exec))
      | _ => acc) acc
    Balanced counted.1 counted.2 (before ++ entries records) := by
  induction records generalizing before acc with
  | nil => simpa [entries] using hb
  | cons record records ih =>
    have hends : ends (record :: records) = stream_end record + ends records := rfl
    rw [hends] at hroom
    have hrest : ∀ r ∈ records, r.id ≠ 0 := fun r hr => hids r (List.mem_cons_of_mem _ hr)
    rw [List.foldl_cons, entries_cons]
    cases record with
    | Exec exec =>
      have hkept := kept_bytes_le exec
      have hid : exec.id ≠ 0 := hids _ List.mem_cons_self
      have hfresh : exec.id ∉ before.map Prod.fst := by
        rw [List.map_cons, List.nodup_append] at hnodup
        intro hmem
        exact hnodup.2.2 _ hmem _ List.mem_cons_self rfl
      have hretained : retained_exec_record_bytes exec = kept_bytes exec := retained_eq (by omega)
      have hadd : saturating_add acc.1 (kept_bytes exec) = acc.1 + kept_bytes exec := by
        rw [hb.total_eq]
        unfold saturating_add
        omega
      simp only [hid, if_false, hretained, hadd, entry, Option.toList_some]
      rw [← List.append_assoc]
      apply ih (before ++ [(exec.id, kept_bytes exec)])
      · exact (hb.post hfresh).perm (List.perm_append_singleton _ _).symm
      · exact hrest
      · simpa [HistoryRecord.id] using hnodup
      · simp only [List.map_append, List.sum_append, List.map_cons, List.map_nil, List.sum_cons,
          List.sum_nil]
        omega
    | _ =>
      apply ih before acc hb hrest
      · exact hnodup.sublist
          (List.Sublist.append (List.Sublist.refl _) (List.sublist_cons_self _ _))
      · omega

/-! ## The moves -/

/-- The id of a record is not zero, and no other entry has it. -/
theorem id_of_its_own {s : HistoryState β} (hids : IdsOk s.ids s.next_id) {index : Nat}
    {record : HistoryRecord β} (hget : s.records[index]? = some record) :
    record.id ≠ 0 ∧ record.id ∉ (entries (s.records.eraseIdx index)).map Prod.fst := by
  have hperm := (erase_perm hget).map HistoryRecord.id
  have hnodup := hperm.nodup_iff.mp hids.nodup
  rw [List.map_cons, List.nodup_cons] at hnodup
  refine ⟨?_, fun hmem => hnodup.1 (mem_entries_fst hmem)⟩
  exact hids.not_zero _ (List.mem_map_of_mem (List.mem_of_getElem? hget))

/-- The entries with the one of the record at a position in front. -/
theorem counts_front {s : HistoryState β} (h : Counts s (entries s.records)) {index : Nat}
    {record : HistoryRecord β} (hget : s.records[index]? = some record) :
    Counts s ((entry record).toList ++ entries (s.records.eraseIdx index)) := by
  rw [← entries_cons]
  exact h.perm (entries_perm (erase_perm hget))

theorem insert_counts {s : HistoryState β} (hids : IdsOk s.ids s.next_id)
    (h : Counts s (entries s.records)) {index : Nat} {record : HistoryRecord β}
    (hroom : ends (s.insert_event index record).1.records ≤ U64_MAX) :
    Counts (s.insert_event index record).1 (entries (s.insert_event index record).1.records) := by
  rw [insert_event_records] at hroom ⊢
  have hperm : (s.records.insertIdx (min index s.records.length)
      (record.with_id s.next_id)).Perm (record.with_id s.next_id :: s.records) :=
    List.perm_insertIdx _ _ (by omega)
  have hends : ends (record.with_id s.next_id :: s.records) =
      stream_end (record.with_id s.next_id) + ends s.records := rfl
  rw [ends_perm hperm, hends] at hroom
  have hsum := entries_sum_le s.records
  have hfirst := hids.first
  have hregistered : Counts (s.insert_event index record).1
      ((entry (record.with_id s.next_id)).toList ++ entries s.records) := by
    apply register_counts (s := { s with
      next_id := saturating_add s.next_id 1
      records := s.records.insertIdx (min index s.records.length) (record.with_id s.next_id) }) h
    · rw [with_id_id]
      omega
    · rw [with_id_id]
      intro hmem
      exact absurd (hids.below _ (mem_entries_fst hmem)) (lt_irrefl _)
    · omega
  rw [← entries_cons] at hregistered
  exact hregistered.perm (entries_perm hperm.symm)

theorem replace_counts {s : HistoryState β} (hids : IdsOk s.ids s.next_id)
    (h : Counts s (entries s.records)) {index : Nat} {existing record : HistoryRecord β}
    (hget : s.records[index]? = some existing)
    (hroom : ends (s.replace_event index record).1.records ≤ U64_MAX) :
    Counts (s.replace_event index record).1
      (entries (s.replace_event index record).1.records) := by
  obtain ⟨hid, hfresh⟩ := id_of_its_own hids hget
  rw [replace_event_records hget] at hroom ⊢
  have hperm := set_perm hget (record.with_id existing.id)
  have hends : ends (record.with_id existing.id :: s.records.eraseIdx index) =
      stream_end (record.with_id existing.id) + ends (s.records.eraseIdx index) := rfl
  rw [ends_perm hperm, hends] at hroom
  have hsum := entries_sum_le (s.records.eraseIdx index)
  have hgone : Counts (s.unregister_record existing) (entries (s.records.eraseIdx index)) :=
    unregister_counts (counts_front h hget) hid
  have hregistered : Counts (s.replace_event index record).1
      ((entry (record.with_id existing.id)).toList ++ entries (s.records.eraseIdx index)) := by
    simp only [replace_event, hget]
    apply register_counts (s := { s.unregister_record existing with
      records := (s.unregister_record existing).records.set index (record.with_id existing.id) })
      hgone
    · rwa [with_id_id]
    · rwa [with_id_id]
    · omega
  rw [← entries_cons] at hregistered
  exact hregistered.perm (entries_perm hperm.symm)

theorem output_counts {s : HistoryState β} (hids : IdsOk s.ids s.next_id)
    (h : Counts s (entries s.records)) {index : Nat} {old exec : ExecRecord β}
    (hget : s.records[index]? = some (.Exec old)) (hid : old.id = exec.id)
    (hroom : ends (s.records.set index (.Exec exec)) ≤ U64_MAX) :
    Counts (s.set_exec_stream_retained exec.id (retained_exec_record_bytes exec))
      (entries (s.records.set index (.Exec exec))) := by
  obtain ⟨hzero, hfresh⟩ := id_of_its_own hids hget
  have hperm := set_perm hget (.Exec exec)
  have hends : ends (.Exec exec :: s.records.eraseIdx index) =
      stream_end (.Exec exec) + ends (s.records.eraseIdx index) := rfl
  rw [ends_perm hperm, hends] at hroom
  have hsum := entries_sum_le (s.records.eraseIdx index)
  have hkept := kept_bytes_le exec
  have hfront := counts_front h hget
  simp only [entry, Option.toList_some, List.singleton_append, hid] at hfront
  rw [retained_eq (by omega)]
  have hamended := set_retained_amend (n := kept_bytes exec) hfront (hid ▸ hzero) (by omega)
  have hcons : entries (.Exec exec :: s.records.eraseIdx index) =
      (exec.id, kept_bytes exec) :: entries (s.records.eraseIdx index) := entries_cons _ _
  rw [← hcons] at hamended
  exact hamended.perm (entries_perm hperm.symm)

theorem restore_counts {s : HistoryState β} {snapshot : HistorySnapshot β}
    (hids : IdsOk ((dedup_messages [] snapshot.records).map HistoryRecord.id) snapshot.next_id)
    (hroom : ends (dedup_messages [] snapshot.records) ≤ U64_MAX) :
    Counts (s.restore snapshot) (entries (dedup_messages [] snapshot.records)) := by
  have hpair := restore_counts_eq s snapshot
  have hcounted := rebuild_counts (dedup_messages [] snapshot.records) [] (0, ∅)
    Balanced.empty (fun record hrecord => hids.not_zero _ (List.mem_map_of_mem hrecord))
    (by simpa using hids.nodup) (by simpa using hroom)
  dsimp only at hcounted
  rw [← hpair] at hcounted
  exact hcounted

theorem truncate_counts {s : HistoryState β} (hids : IdsOk s.ids s.next_id)
    (h : Counts s (entries s.records)) (id : Nat) :
    Counts (s.truncate_after id).1 (entries (s.truncate_after id).1.records) := by
  rcases truncate_after_cases s id with ⟨hid, heq⟩ | heq | ⟨n, heq, _⟩
  · rw [heq]
    exact Balanced.empty
  · rw [heq]
    exact h
  · have hkept : (s.truncate_after id).1.records = s.records.take n := by
      rw [heq]
      simp [recompute_next_id]
    rw [hkept, heq]
    have hperm : s.records.Perm (s.records.drop n ++ s.records.take n) := by
      have happend : (s.records.take n ++ s.records.drop n).Perm
          (s.records.drop n ++ s.records.take n) := List.perm_append_comm
      rwa [List.take_append_drop] at happend
    have hall : Counts s (entries (s.records.drop n) ++ entries (s.records.take n)) := by
      unfold entries
      rw [← List.filterMap_append]
      exact h.perm (entries_perm hperm)
    apply unregister_all_counts (s := { s with records := s.records.take n }) hall
    intro record hrecord
    exact hids.not_zero _ (List.mem_map_of_mem (List.mem_of_mem_drop hrecord))

theorem make_counts {s s' : HistoryState β} {m : Move β} (hids : IdsOk s.ids s.next_id)
    (h : Counts s (entries s.records)) (hends : ends s.records ≤ U64_MAX) (hfit : Fits s m)
    (hkeep : KeepsIds s m) (hmake : make s m = some s') (hroom : ends s'.records ≤ U64_MAX) :
    Counts s' (entries s'.records) := by
  cases m with
  | insert index record =>
    obtain rfl := Option.some.inj hmake
    exact insert_counts hids h hroom
  | replace index record =>
    obtain rfl := Option.some.inj hmake
    rcases hget : s.records[index]? with _ | existing
    · rw [replace_event, hget]
      exact h
    · exact replace_counts hids h hget hroom
  | remove index =>
    obtain rfl := Option.some.inj hmake
    rcases hget : s.records[index]? with _ | existing
    · rw [remove_event, hget]
      exact h
    · rw [remove_event_records hget]
      simp only [remove_event, hget]
      exact unregister_counts (s := { s with records := _ }) (counts_front h hget)
        (id_of_its_own hids hget).1
  | refresh index message =>
    obtain rfl := Option.some.inj hmake
    obtain ⟨old, hget, _⟩ := hfit
    have hperm := entries_perm (set_perm hget (.AssistantMessage message)).symm
    rw [entries_cons] at hperm
    exact (counts_front h hget).perm hperm
  | output index exec =>
    obtain rfl := Option.some.inj hmake
    obtain ⟨old, hget, hid, _⟩ := hfit
    rw [set_retained_records_eq] at hroom ⊢
    rw [set_retained_records]
    exact output_counts hids h hget hid hroom
  | enforce => exact enforce_counts hmake h hends
  | truncate id =>
    obtain rfl := Option.some.inj hmake
    exact truncate_counts hids h id
  | restore snapshot =>
    obtain rfl := Option.some.inj hmake
    rw [restore_records] at hroom ⊢
    exact restore_counts hkeep hroom

/-! ## Room for the bytes -/

def chunk_end (chunk : Option ExecStreamChunk) : Nat :=
  match chunk with
  | some chunk => chunk.offset + Text.len chunk.content
  | none => 0

def tail_len (tail : Option Text) : Nat :=
  match tail with
  | some tail => Text.len tail
  | none => 0

/-- The byte positions that an operation brings: the ends of the streams and chunks that it is
given, and the lengths of the last outputs. -/
def brings : Op β → Nat
  | .push record | .insert _ record => stream_end record
  | .apply_event (.Insert _ record) | .apply_event (.Replace _ record) => stream_end record
  | .apply_domain_event _ (.Insert _ record) | .apply_domain_event _ (.Replace _ record) =>
    stream_end record
  | .apply_domain_event _ (.UpdateExecStream _ stdout_chunk stderr_chunk) =>
    chunk_end stdout_chunk + chunk_end stderr_chunk
  | .apply_domain_event _ (.FinishExec _ _ _ _ _ stdout_tail stderr_tail _ _ _) =>
    tail_len stdout_tail + tail_len stderr_tail
  | _ => 0

/-- The ends of all streams, with what the operation brings, are positions of bytes. -/
def bytes_fit (s : HistoryState β) : Op β → Prop
  | .restore snapshot => ends (dedup_messages [] snapshot.records) ≤ U64_MAX
  | op => ends s.records + brings op ≤ U64_MAX

/-- The ends of the streams after a move are positions of bytes. -/
def KeepsRoom (s : HistoryState β) (m : Move β) : Prop :=
  ∀ s', make s m = some s' → ends s'.records ≤ U64_MAX

theorem insert_ends (s : HistoryState β) (index : Nat) (record : HistoryRecord β) :
    ends (s.insert_event index record).1.records = ends s.records + stream_end record := by
  have hperm : (s.records.insertIdx (min index s.records.length)
      (record.with_id s.next_id)).Perm (record.with_id s.next_id :: s.records) :=
    List.perm_insertIdx _ _ (by omega)
  rw [insert_event_records, ends_perm hperm]
  simp only [ends, List.map_cons, List.sum_cons, stream_end_with_id]
  omega

theorem insert_room {s : HistoryState β} {index : Nat} {record : HistoryRecord β}
    (h : ends s.records + stream_end record ≤ U64_MAX) : KeepsRoom s (.insert index record) := by
  intro s' hmake
  obtain rfl := Option.some.inj hmake
  rw [insert_ends]
  exact h

theorem replace_room {s : HistoryState β} {index : Nat} {record : HistoryRecord β}
    (hroom : ends s.records ≤ U64_MAX)
    (h : ∀ existing, s.records[index]? = some existing →
      ends s.records + stream_end record ≤ U64_MAX + stream_end existing) :
    KeepsRoom s (.replace index record) := by
  intro s' hmake
  obtain rfl := Option.some.inj hmake
  rcases hget : s.records[index]? with _ | existing
  · rw [replace_event, hget]
    exact hroom
  · rw [replace_event_records hget]
    have hset := ends_set hget (record.with_id existing.id)
    have hexisting := h existing hget
    rw [stream_end_with_id] at hset
    omega

/-- The moves that put in no bytes. -/
inductive Shrinks : Move β → Prop
  | remove (index : Nat) : Shrinks (.remove index)
  | refresh (index : Nat) (message : AssistantMessageState β) : Shrinks (.refresh index message)
  | enforce : Shrinks .enforce
  | truncate (id : Nat) : Shrinks (.truncate id)

theorem shrinks_ends {s s' : HistoryState β} {m : Move β} (hm : Shrinks m)
    (hmake : make s m = some s') : ends s'.records ≤ ends s.records := by
  cases hm with
  | remove index =>
    obtain rfl := Option.some.inj hmake
    rcases hget : s.records[index]? with _ | existing
    · rw [remove_event, hget]
    · rw [remove_event_records hget]
      exact ends_sublist (List.eraseIdx_sublist _ _)
  | refresh index message =>
    obtain rfl := Option.some.inj hmake
    rcases hget : s.records[index]? with _ | old
    · rw [List.set_eq_of_length_le (List.getElem?_eq_none_iff.mp hget)]
    · have hset := ends_set hget (.AssistantMessage message)
      have hzero : stream_end (.AssistantMessage message) = 0 := rfl
      dsimp only
      omega
  | enforce => exact ends_pruned (enforce_some hmake).1
  | truncate id =>
    obtain rfl := Option.some.inj hmake
    rcases truncate_after_cases s id with ⟨hid, heq⟩ | heq | ⟨n, heq, _⟩
    · rw [heq]
      exact Nat.zero_le _
    · rw [heq]
    · rw [heq]
      simpa [recompute_next_id] using ends_sublist (List.take_sublist n s.records)

theorem shrinks_room {s : HistoryState β} {m : Move β} (hm : Shrinks m)
    (hroom : ends s.records ≤ U64_MAX) : KeepsRoom s m :=
  fun _ hmake => le_trans (shrinks_ends hm hmake) hroom

theorem append_optional_len {chunks chunks' : List ExecStreamChunk}
    {chunk : Option ExecStreamChunk} (h : append_optional chunks chunk = some chunks') :
    stream_len chunks' ≤ max (stream_len chunks) (chunk_end chunk) := by
  unfold append_optional at h
  split at h
  · exact append_exec_chunk_len h
  · obtain rfl := Option.some.inj h
    exact le_max_left _ _

theorem tail_chunk_end (chunks : List ExecStreamChunk) (tail : Option Text) :
    max (stream_len chunks) (chunk_end (tail_chunk chunks tail)) ≤
      stream_len chunks + tail_len tail := by
  unfold tail_chunk tail_len
  cases tail with
  | none => simp [chunk_end]
  | some tail =>
    by_cases hempty : tail = []
    · simp [hempty, chunk_end]
    · simp [hempty, chunk_end]

/-- More output moves the end of a command to the old end or the end of a chunk. -/
theorem append_output_end {exec exec' : ExecRecord β} {out err : Option ExecStreamChunk}
    (h : append_output exec out err = some exec') :
    stream_end (.Exec exec') ≤ max (stream_len exec.stdout_chunks) (chunk_end out) +
      max (stream_len exec.stderr_chunks) (chunk_end err) := by
  obtain ⟨stdout_chunks, stderr_chunks, hout, herr, rfl⟩ := append_output_some h
  exact Nat.add_le_add (append_optional_len hout) (append_optional_len herr)

/-! ## The room of an operation -/

theorem upsert_room {now : Nat} {s : HistoryState β} {stream_id preview_markdown : Text}
    {delta : Option AssistantStreamDelta} {metadata : Option (MessageMetadata β)}
    (hroom : ends s.records ≤ U64_MAX) :
    KeepsRoom s (upsert_move now s stream_id preview_markdown delta metadata) := by
  have hfresh : KeepsRoom s (.insert s.records.length
      (.AssistantStream (new_stream now stream_id preview_markdown delta metadata))) :=
    insert_room hroom
  unfold upsert_move
  rcases s.records.findIdx? (is_stream stream_id) with _ | idx
  · exact hfresh
  · dsimp only
    split
    · exact replace_room hroom fun existing _ => Nat.le_add_right_of_le hroom
    · exact hfresh

theorem finalize_room {now : Nat} {s : HistoryState β} {stream_id : Option Text}
    {markdown : Text} {metadata : Option (MessageMetadata β)} {token_usage : Option β}
    (hroom : ends s.records ≤ U64_MAX) :
    ∀ m ∈ take_moves s stream_id ++ [message_move now s stream_id markdown metadata token_usage],
      KeepsRoom s m := by
  intro m hm
  rcases List.mem_append.mp hm with hm | hm
  · unfold take_moves at hm
    split at hm
    · obtain rfl := List.mem_singleton.mp hm
      exact shrinks_room (.remove _) hroom
    · cases hm
  · obtain rfl := List.mem_singleton.mp hm
    rcases message_move_cases now s stream_id markdown metadata token_usage with
      ⟨i, message, h⟩ | ⟨i, message, h, _⟩
    · rw [h]
      exact insert_room hroom
    · rw [h]
      exact shrinks_room (.refresh _ _) hroom

theorem finish_room {s : HistoryState β} {id : Option Nat} {call_id : Option Text}
    {set_fields : ExecRecord β → ExecRecord β} {stdout_tail stderr_tail : Option Text}
    (hset : ∀ exec, (set_fields exec).stdout_chunks = exec.stdout_chunks ∧
      (set_fields exec).stderr_chunks = exec.stderr_chunks)
    (hroom : ends s.records + (tail_len stdout_tail + tail_len stderr_tail) ≤ U64_MAX)
    {ms : List (Move β)}
    (h : finish_moves s id call_id set_fields stdout_tail stderr_tail = some ms) :
    ∀ m ∈ ms, KeepsRoom s m := by
  unfold finish_moves at h
  split at h
  · split at h
    · rename_i idx _ existing hget
      obtain ⟨updated, hupdated, rfl⟩ := Option.map_eq_some_iff.mp h
      have hend := append_output_end hupdated
      rw [(hset existing).1, (hset existing).2] at hend
      have hout := tail_chunk_end existing.stdout_chunks stdout_tail
      have herr := tail_chunk_end existing.stderr_chunks stderr_tail
      intro m hm
      rcases List.mem_cons.mp hm with rfl | hm
      · apply replace_room (by omega)
        intro found hfound
        obtain rfl := Option.some.inj (hget.symm.trans hfound)
        have hexisting : stream_end (.Exec existing) =
          stream_len existing.stdout_chunks + stream_len existing.stderr_chunks := rfl
        omega
      · obtain rfl := List.mem_singleton.mp hm
        exact shrinks_room .enforce (by omega)
    · obtain rfl := Option.some.inj h
      intro m hm
      cases hm
  · obtain rfl := Option.some.inj h
    intro m hm
    cases hm

theorem output_room {s : HistoryState β} {index : Nat} {existing updated : ExecRecord β}
    {out err : Option ExecStreamChunk} (hget : s.records[index]? = some (.Exec existing))
    (hupdated : append_output existing out err = some updated)
    (hroom : ends s.records + (chunk_end out + chunk_end err) ≤ U64_MAX) :
    KeepsRoom s (.output index updated) := by
  intro s' hmake
  obtain rfl := Option.some.inj hmake
  rw [set_retained_records_eq]
  have hend := append_output_end hupdated
  have hset := ends_set hget (.Exec updated)
  have hexisting : stream_end (.Exec existing) =
    stream_len existing.stdout_chunks + stream_len existing.stderr_chunks := rfl
  dsimp only
  omega

theorem domain_room {now : Nat} {s : HistoryState β} {event : HistoryDomainEvent β}
    (hroom : ends s.records + brings (.apply_domain_event now event) ≤ U64_MAX)
    {ms : List (Move β)} (h : domain_moves now s event = some ms) :
    ∀ m ∈ ms, KeepsRoom s m := by
  have hends : ends s.records ≤ U64_MAX := by omega
  cases event with
  | Insert index record =>
    obtain rfl := Option.some.inj h
    rw [List.forall_mem_singleton]
    exact insert_room (by simpa [HistoryRecord.into_history_record, brings] using hroom)
  | Replace index record =>
    obtain rfl := Option.some.inj h
    rw [List.forall_mem_singleton]
    apply replace_room hends
    intro existing _
    simp only [HistoryRecord.into_history_record, stream_end_with_id]
    exact Nat.le_add_right_of_le hroom
  | Remove index =>
    obtain rfl := Option.some.inj h
    exact List.forall_mem_singleton.mpr (shrinks_room (.remove _) hends)
  | UpdateExecStream index stdout_chunk stderr_chunk =>
    simp only [domain_moves] at h
    split at h
    · rename_i existing hget
      obtain ⟨updated, hupdated, rfl⟩ := Option.map_eq_some_iff.mp h
      intro m hm
      rcases List.mem_cons.mp hm with rfl | hm
      · exact output_room hget hupdated hroom
      · obtain rfl := List.mem_singleton.mp hm
        exact shrinks_room .enforce hends
    · obtain rfl := Option.some.inj h
      intro m hm
      cases hm
  | UpsertAssistantStream stream_id preview_markdown delta metadata =>
    obtain rfl := Option.some.inj h
    exact List.forall_mem_singleton.mpr (upsert_room hends)
  | UpdateExecWait index total_wait wait_active notes =>
    simp only [domain_moves] at h
    split at h
    · rename_i existing hget
      obtain rfl := Option.some.inj h
      rw [List.forall_mem_singleton]
      apply replace_room hends
      intro found hfound
      obtain rfl := Option.some.inj (hget.symm.trans hfound)
      exact Nat.add_le_add_right hends _
    · obtain rfl := Option.some.inj h
      intro m hm
      cases hm
  | StartExec =>
    obtain rfl := Option.some.inj h
    exact List.forall_mem_singleton.mpr (insert_room hends)
  | FinishExec =>
    refine finish_room ?_ hroom h
    exact fun _ => ⟨rfl, rfl⟩

/-- Every move of an operation whose bytes fit keeps the room. -/
theorem moves_room {s : HistoryState β} {op : Op β} (hends : ends s.records ≤ U64_MAX)
    (hfit : bytes_fit s op) {ms : List (Move β)} (h : moves s op = some ms) :
    ∀ m ∈ ms, KeepsRoom s m := by
  cases op with
  | push record =>
    obtain rfl := Option.some.inj h
    exact List.forall_mem_singleton.mpr (insert_room hfit)
  | insert index record =>
    simp only [moves] at h
    split at h
    · obtain rfl := Option.some.inj h
      exact List.forall_mem_singleton.mpr (insert_room hfit)
    · cases h
  | remove index =>
    obtain rfl := Option.some.inj h
    exact List.forall_mem_singleton.mpr (shrinks_room (.remove _) hends)
  | upsert_assistant_stream_state now stream_id preview_markdown delta metadata =>
    obtain rfl := Option.some.inj h
    exact List.forall_mem_singleton.mpr (upsert_room hends)
  | finalize_assistant_stream_state now stream_id markdown metadata token_usage =>
    obtain rfl := Option.some.inj h
    exact finalize_room hends
  | restore snapshot =>
    obtain rfl := Option.some.inj h
    rw [List.forall_mem_singleton]
    intro s' hmake
    obtain rfl := Option.some.inj hmake
    rw [restore_records]
    exact hfit
  | truncate_after id =>
    obtain rfl := Option.some.inj h
    exact List.forall_mem_singleton.mpr (shrinks_room (.truncate _) hends)
  | apply_event event =>
    cases event with
    | Insert index record =>
      obtain rfl := Option.some.inj h
      exact List.forall_mem_singleton.mpr (insert_room hfit)
    | Replace index record =>
      obtain rfl := Option.some.inj h
      rw [List.forall_mem_singleton]
      exact replace_room hends fun existing _ => Nat.le_add_right_of_le hfit
    | Remove index =>
      obtain rfl := Option.some.inj h
      exact List.forall_mem_singleton.mpr (shrinks_room (.remove _) hends)
  | apply_domain_event now event => exact domain_room hfit h

theorem room_later {s t : HistoryState β} {m m' : Move β} (hfollows : Follows m m')
    (hmake : make s m = some t) (hroom : KeepsRoom s m) (hroom' : KeepsRoom s m') :
    KeepsRoom t m' := by
  have ht : ends t.records ≤ U64_MAX := hroom t hmake
  cases hfollows with
  | message_added index at_index record =>
    apply insert_room
    have hinserted := hroom' _ rfl
    have hshrunk := shrinks_ends (.remove index) hmake
    rw [insert_ends] at hinserted
    omega
  | message_refreshed => exact shrinks_room (.refresh _ _) ht
  | replaced => exact shrinks_room .enforce ht
  | output => exact shrinks_room .enforce ht

/-! ## Every run -/

/-- The total is the sum of the bytes that the commands keep, and the map holds exactly one entry
for every command, with its own bytes. -/
def bytes_exact (s : HistoryState β) : Prop :=
  s.exec_stream_retained_total_bytes = ((entries s.records).map Prod.snd).sum ∧
  ((entries s.records).map Prod.fst).Nodup ∧
  ∀ id n, s.exec_stream_retained_by_id.lookup id = some n ↔
    ∃ exec, .Exec exec ∈ s.records ∧ exec.id = id ∧ kept_bytes exec = n

/-- A step that takes an id takes it below the last one, a restored snapshot has its ids in order,
and the bytes fit. -/
def bytes_step (s : HistoryState β) (op : Op β) : Prop :=
  (∀ ms, moves s op = some ms → ∀ m ∈ ms, KeepsIds s m) ∧ bytes_fit s op

theorem mem_entries_iff {records : List (HistoryRecord β)} {id n : Nat} :
    (id, n) ∈ entries records ↔
      ∃ exec, .Exec exec ∈ records ∧ exec.id = id ∧ kept_bytes exec = n := by
  unfold entries
  rw [List.mem_filterMap]
  constructor
  · rintro ⟨record, hrecord, hentry⟩
    cases record with
    | Exec exec =>
      cases hentry
      exact ⟨exec, hrecord, rfl, rfl⟩
    | _ => cases hentry
  · rintro ⟨exec, hexec, rfl, rfl⟩
    exact ⟨_, hexec, rfl⟩

theorem counts_in_every_run {s : HistoryState β}
    (h : Reached step HistoryState.new bytes_step s) :
    IdsOk s.ids s.next_id ∧ ends s.records ≤ U64_MAX ∧ Counts s (entries s.records) := by
  apply run_keeps (Q := fun s m => KeepsIds s m ∧ KeepsRoom s m)
    (I := fun s => IdsOk s.ids s.next_id ∧ ends s.records ≤ U64_MAX ∧
      Counts s (entries s.records)) _ _ _ _ h
  · exact ⟨new_ids_ok, Nat.zero_le _, Balanced.empty⟩
  · rintro s m s' ⟨hids, hends, hcounts⟩ hfit ⟨hkeep, hroom⟩ hmake
    have hends' := hroom s' hmake
    exact ⟨make_ids_ok hids hfit hkeep hmake, hends',
      make_counts hids hcounts hends hfit hkeep hmake hends'⟩
  · rintro s m m' t _ _ ⟨_, hroom⟩ hfollows hmake ⟨hkeep', hroom'⟩
    exact ⟨keeps_ids_later hfollows hmake hkeep', room_later hfollows hmake hroom hroom'⟩
  · rintro s op ⟨_, hends, _⟩ hop ms hms m hm
    exact ⟨hop.1 ms hms m hm, moves_room hends hop.2 hms m hm⟩

/-- In every run of such steps the count of the bytes is exact. -/
theorem bytes_exact_in_every_run {s : HistoryState β}
    (h : Reached step HistoryState.new bytes_step s) : bytes_exact s := by
  obtain ⟨_, _, hcounts⟩ := counts_in_every_run h
  refine ⟨hcounts.total_eq, hcounts.nodup, ?_⟩
  intro id n
  rw [hcounts.lookup_iff]
  exact mem_entries_iff

/-- A command with its output. -/
def command (stdout_chunks : List ExecStreamChunk) : HistoryRecord Unit :=
  .Exec ⟨0, some "call".toList, [], [], .Run, .Running, stdout_chunks, [], none, none, false, [], 0,
    none, none, [], []⟩

theorem bytes_exact_after_push :
    ∃ s : HistoryState Unit, step HistoryState.new (.push (command [⟨0, "ab".toList⟩])) = some s ∧
      s.exec_stream_retained_total_bytes = 2 ∧ bytes_exact s := by
  have hfit : bytes_fit HistoryState.new (.push (command [⟨0, "ab".toList⟩])) := by
    unfold bytes_fit
    decide +kernel
  refine ⟨_, rfl, by decide +kernel, bytes_exact_in_every_run
    (.step (a := .push (command [⟨0, "ab".toList⟩])) .start ⟨?_, hfit⟩ rfl)⟩
  intro ms hms m hm
  obtain rfl := Option.some.inj hms
  obtain rfl := List.mem_singleton.mp hm
  simp [KeepsIds, HistoryState.new, U64_MAX]

/-- Output with a gap between its first byte and the last one that there can be. -/
def far_output : List ExecStreamChunk := [⟨0, "a".toList⟩, ⟨2 ^ 64 - 2, "b".toList⟩]

/-- Two commands whose streams end at the last byte position: the total is that of one. -/
theorem saturated_total_is_not_exact :
    ¬ ∀ s : HistoryState Unit, Reached step HistoryState.new (fun _ _ => True) s →
      bytes_exact s := by
  intro hall
  have hs := hall _ (.step (a := .push (command far_output))
    (.step (a := .push (command far_output)) .start trivial rfl) trivial rfl)
  exact absurd hs.1 (by decide +kernel)

end Ecode.history
