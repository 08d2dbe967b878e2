-- The maps that find the records of a call or a stream: every entry points to a
-- record that is there, and none is missing while no shared id is given up.
import Ecode.HistoryIdentity

namespace Ecode.history

open registry runs HistoryState

variable {β : Type}

/-! ## The three maps -/

/-- The three maps: of commands, of tools and of streams. -/
inductive Lane where
  | exec
  | tool
  | stream
  deriving DecidableEq, Repr

namespace Lane

def lookup : Lane → HistoryState β → Lookup Text Nat
  | exec, s => s.exec_call_lookup
  | tool, s => s.tool_call_lookup
  | stream, s => s.stream_lookup

def restored : Lane → HistorySnapshot β → Lookup Text Nat
  | exec, snapshot => snapshot.exec_call_lookup
  | tool, snapshot => snapshot.tool_call_lookup
  | stream, snapshot => snapshot.stream_lookup

/-- The ids under which a record is registered. -/
def keys : Lane → HistoryRecord β → List Text
  | exec, .Exec state => state.call_id.toList
  | exec, .MergedExec state => state.segments.filterMap ExecRecord.call_id
  | tool, .RunningTool state => state.call_id.toList
  | tool, .ToolCall state => state.call_id.toList
  | stream, .AssistantStream state => [state.stream_id]
  | _, _ => []

variable (l : Lane)

@[simp] theorem keys_with_id (id : Nat) (record : HistoryRecord β) :
    l.keys (record.with_id id) = l.keys record := by
  cases l <;> cases record <;> rfl

@[simp] theorem lookup_set_retained (s : HistoryState β) (id retained : Nat) :
    l.lookup (s.set_exec_stream_retained id retained) = l.lookup s := by
  unfold set_exec_stream_retained
  split <;> cases l <;> rfl

@[simp] theorem lookup_remove_retained (s : HistoryState β) (id : Nat) :
    l.lookup (s.remove_exec_stream_retained id) = l.lookup s := by
  unfold remove_exec_stream_retained
  split_ifs
  · rfl
  · split <;> cases l <;> rfl

/-- A record is enrolled under its ids in every map. -/
@[simp] theorem lookup_register (s : HistoryState β) (record : HistoryRecord β) :
    l.lookup (s.register_record record) = enroll (l.lookup s) record.id (l.keys record) := by
  cases record with
  | Exec state =>
    simp only [register_record, lookup_set_retained]
    cases l <;> rfl
  | _ => cases l <;> rfl

/-- A record is withdrawn from its ids in every map. -/
@[simp] theorem lookup_unregister (s : HistoryState β) (record : HistoryRecord β) :
    l.lookup (s.unregister_record record) = withdraw (l.lookup s) record.id (l.keys record) := by
  cases record with
  | Exec state =>
    simp only [unregister_record, lookup_remove_retained]
    cases l <;> rfl
  | _ => cases l <;> rfl

theorem lookup_register_all (records : List (HistoryRecord β)) (s : HistoryState β) :
    l.lookup (records.foldl register_record s) =
      enroll_all HistoryRecord.id l.keys (l.lookup s) records := by
  induction records generalizing s with
  | nil => rfl
  | cons record records ih =>
    rw [List.foldl_cons, ih, lookup_register]
    rfl

theorem lookup_unregister_all (records : List (HistoryRecord β)) (s : HistoryState β) :
    l.lookup (records.foldl unregister_record s) =
      withdraw_all HistoryRecord.id l.keys (l.lookup s) records := by
  induction records generalizing s with
  | nil => rfl
  | cons record records ih =>
    rw [List.foldl_cons, ih, lookup_unregister]
    rfl

@[simp] theorem lookup_rebuild_id_index (s : HistoryState β) :
    l.lookup s.rebuild_id_index = l.lookup s := by
  cases l <;> rfl

@[simp] theorem lookup_recompute_next_id (s : HistoryState β) :
    l.lookup s.recompute_next_id = l.lookup s := by
  cases l <;> rfl

@[simp] theorem lookup_records (s : HistoryState β) (records : List (HistoryRecord β)) :
    l.lookup { s with records } = l.lookup s := by
  cases l <;> rfl

@[simp] theorem lookup_next_history_id (s : HistoryState β) :
    l.lookup s.next_history_id.2 = l.lookup s := by
  cases l <;> rfl

end Lane

/-- Every entry of the map points to a record with that id. -/
def Points (l : Lane) (s : HistoryState β) : Prop :=
  Sound HistoryRecord.id l.keys (l.lookup s) s.records

/-- Every id of every record has an entry. -/
def Covers (l : Lane) (s : HistoryState β) : Prop :=
  Complete l.keys (l.lookup s) s.records

/-! ## What the moves do to the maps -/

theorem insert_event_lookup (l : Lane) (s : HistoryState β) (index : Nat)
    (record : HistoryRecord β) :
    l.lookup (s.insert_event index record).1 = enroll (l.lookup s) s.next_id (l.keys record) := by
  simp only [insert_event, Lane.lookup_rebuild_id_index, Lane.lookup_register, Lane.keys_with_id,
    with_id_id]
  cases l <;> rfl

theorem insert_event_records (s : HistoryState β) (index : Nat) (record : HistoryRecord β) :
    (s.insert_event index record).1.records =
      s.records.insertIdx (min index s.records.length) (record.with_id s.next_id) := by
  simp [insert_event, next_history_id]

theorem replace_event_lookup {s : HistoryState β} {index : Nat} {existing : HistoryRecord β}
    (h : s.records[index]? = some existing) (record : HistoryRecord β) (l : Lane) :
    l.lookup (s.replace_event index record).1 =
      enroll (withdraw (l.lookup s) existing.id (l.keys existing)) existing.id
        (l.keys record) := by
  simp only [replace_event, h, Lane.lookup_rebuild_id_index, Lane.lookup_register,
    Lane.keys_with_id, with_id_id]
  rw [← Lane.lookup_unregister]
  cases l <;> rfl

theorem replace_event_records {s : HistoryState β} {index : Nat} {existing : HistoryRecord β}
    (h : s.records[index]? = some existing) (record : HistoryRecord β) :
    (s.replace_event index record).1.records =
      s.records.set index (record.with_id existing.id) := by
  simp [replace_event, h]

theorem remove_event_lookup {s : HistoryState β} {index : Nat} {record : HistoryRecord β}
    (h : s.records[index]? = some record) (l : Lane) :
    l.lookup (s.remove_event index).1 = withdraw (l.lookup s) record.id (l.keys record) := by
  simp only [remove_event, h, Lane.lookup_rebuild_id_index, Lane.lookup_unregister,
    Lane.lookup_records]

theorem remove_event_records {s : HistoryState β} {index : Nat} {record : HistoryRecord β}
    (h : s.records[index]? = some record) :
    (s.remove_event index).1.records = s.records.eraseIdx index := by
  simp [remove_event, h]

/-- The maps of a snapshot are taken over, or built when all three are empty. -/
theorem restore_lookup_cases (s : HistoryState β) (snapshot : HistorySnapshot β) :
    ((∀ l : Lane, l.restored snapshot = ∅) ∧ ∀ l : Lane, l.lookup (s.restore snapshot) =
      enroll_all HistoryRecord.id l.keys ∅ (dedup_messages [] snapshot.records)) ∨
    (¬ (∀ l : Lane, l.restored snapshot = ∅) ∧
      ∀ l : Lane, l.lookup (s.restore snapshot) = l.restored snapshot) := by
  have hcounted : ∀ (l : Lane) (t : HistoryState β),
      l.lookup t.rebuild_exec_stream_retained_totals = l.lookup t := by
    intro l t
    cases l <;> rfl
  unfold restore
  dsimp only
  split_ifs with hempty
  · left
    refine ⟨?_, ?_⟩
    · intro l
      cases l
      · exact hempty.1
      · exact hempty.2.1
      · exact hempty.2.2
    · intro l
      rw [hcounted, Lane.lookup_rebuild_id_index, rebuild_lookup_maps, Lane.lookup_register_all]
      cases l <;> rfl
  · right
    refine ⟨fun hall => hempty ⟨hall .exec, hall .tool, hall .stream⟩, ?_⟩
    intro l
    rw [hcounted, Lane.lookup_rebuild_id_index]
    cases l <;> rfl

/-! ## Every entry points to a record -/

/-- The entries of a restored snapshot point to its records. -/
def RestoresPoints : Move β → Prop
  | .restore snapshot => ∀ l : Lane, Sound HistoryRecord.id l.keys (l.restored snapshot)
      (dedup_messages [] snapshot.records)
  | _ => True

theorem mem_set_or_eq {records : List (HistoryRecord β)} {index : Nat} {old g : HistoryRecord β}
    (h : records[index]? = some old) (new : HistoryRecord β) (hg : g ∈ records) :
    g = old ∨ g ∈ records.set index new := by
  obtain ⟨i, hi, rfl⟩ := List.mem_iff_getElem.mp hg
  obtain ⟨hlt, rfl⟩ := List.getElem?_eq_some_iff.mp h
  by_cases heq : index = i
  · subst heq
    exact .inl rfl
  · right
    rw [List.mem_iff_getElem]
    exact ⟨i, by simpa using hi, List.getElem_set_ne heq _⟩

theorem mem_eraseIdx_or_eq {records : List (HistoryRecord β)} {index : Nat}
    {old g : HistoryRecord β} (h : records[index]? = some old) (hg : g ∈ records) :
    g = old ∨ g ∈ records.eraseIdx index := by
  obtain ⟨i, hi, rfl⟩ := List.mem_iff_getElem.mp hg
  obtain ⟨hlt, rfl⟩ := List.getElem?_eq_some_iff.mp h
  by_cases heq : index = i
  · subst heq
    exact .inl rfl
  · exact .inr (List.mem_eraseIdx_iff_getElem.mpr ⟨i, hi, Ne.symm heq, rfl⟩)

theorem mem_set_self {records : List (HistoryRecord β)} {index : Nat} {old : HistoryRecord β}
    (h : records[index]? = some old) (new : HistoryRecord β) : new ∈ records.set index new := by
  obtain ⟨hlt, rfl⟩ := List.getElem?_eq_some_iff.mp h
  exact List.mem_iff_getElem.mpr ⟨index, by simpa using hlt, by simp⟩

theorem pruned_mem {records records' : List (HistoryRecord β)}
    (h : List.Forall₂ Pruned records records') (l : Lane) {g : HistoryRecord β} (hg : g ∈ records) :
    ∃ g' ∈ records', g'.id = g.id ∧ l.keys g' = l.keys g := by
  induction h with
  | nil => cases hg
  | cons hr _ ih =>
    rcases List.mem_cons.mp hg with rfl | hg
    · refine ⟨_, List.mem_cons_self, ?_⟩
      cases hr with
      | same => exact ⟨rfl, rfl⟩
      | exec => exact ⟨rfl, by cases l <;> rfl⟩
    · obtain ⟨g', hg', h⟩ := ih hg
      exact ⟨g', List.mem_cons_of_mem _ hg', h⟩

theorem insert_points {s : HistoryState β} {l : Lane} (h : Points l s) (index : Nat)
    (record : HistoryRecord β) : Points l (s.insert_event index record).1 := by
  unfold Points
  have hle : min index s.records.length ≤ s.records.length := by omega
  have hnew : record.with_id s.next_id ∈ s.records.insertIdx (min index s.records.length)
      (record.with_id s.next_id) := by
    rw [List.mem_insertIdx hle]
    exact .inl rfl
  have hsub : ∀ g ∈ s.records, g ∈ s.records.insertIdx (min index s.records.length)
      (record.with_id s.next_id) := by
    intro g hg
    rw [List.mem_insertIdx hle]
    exact .inr hg
  rw [insert_event_lookup, insert_event_records]
  simpa using h.enroll hsub hnew

theorem replace_points {s : HistoryState β} {l : Lane} (h : Points l s) (index : Nat)
    (record : HistoryRecord β) : Points l (s.replace_event index record).1 := by
  rcases hget : s.records[index]? with _ | existing
  · rw [replace_event, hget]
    exact h
  · unfold Points
    rw [replace_event_lookup hget, replace_event_records hget]
    have hgone := h.withdraw fun g hg => mem_set_or_eq hget (record.with_id existing.id) hg
    simpa using hgone.enroll (fun _ hg => hg) (mem_set_self hget (record.with_id existing.id))

theorem remove_points {s : HistoryState β} {l : Lane} (h : Points l s) (index : Nat) :
    Points l (s.remove_event index).1 := by
  rcases hget : s.records[index]? with _ | existing
  · rw [remove_event, hget]
    exact h
  · unfold Points
    rw [remove_event_lookup hget, remove_event_records hget]
    exact h.withdraw fun g hg => mem_eraseIdx_or_eq hget hg

theorem truncate_points {s : HistoryState β} {l : Lane} (h : Points l s) (id : Nat) :
    Points l (s.truncate_after id).1 := by
  rcases truncate_after_cases s id with ⟨hid, heq⟩ | heq | ⟨n, heq, _⟩
  · rw [heq]
    cases l <;> exact Sound.empty
  · rw [heq]
    exact h
  · rw [heq]
    unfold Points
    rw [Lane.lookup_rebuild_id_index, Lane.lookup_recompute_next_id, Lane.lookup_unregister_all]
    have hall : Sound HistoryRecord.id l.keys (l.lookup s)
        (s.records.take n ++ s.records.drop n) := by
      rw [List.take_append_drop]
      exact h
    simpa [recompute_next_id] using hall.withdraw_all

theorem restore_points {s : HistoryState β} {snapshot : HistorySnapshot β}
    (hrestore : RestoresPoints (.restore snapshot)) (l : Lane) : Points l (s.restore snapshot) := by
  unfold Points
  rw [restore_records]
  rcases restore_lookup_cases s snapshot with ⟨_, hl⟩ | ⟨_, hl⟩
  · rw [hl]
    exact Sound.empty.enroll_all fun _ hg => hg
  · rw [hl]
    exact hrestore l

theorem make_points {s s' : HistoryState β} {m : Move β} (h : ∀ l, Points l s) (hfit : Fits s m)
    (hrestore : RestoresPoints m) (hmake : make s m = some s') : ∀ l, Points l s' := by
  intro l
  cases m with
  | insert index record =>
    obtain rfl := Option.some.inj hmake
    exact insert_points (h l) index record
  | replace index record =>
    obtain rfl := Option.some.inj hmake
    exact replace_points (h l) index record
  | remove index =>
    obtain rfl := Option.some.inj hmake
    exact remove_points (h l) index
  | refresh index message =>
    obtain rfl := Option.some.inj hmake
    obtain ⟨old, hget, hid⟩ := hfit
    unfold Points
    rw [Lane.lookup_records]
    apply (h l).transfer
    intro g hg hkeys
    rcases mem_set_or_eq hget (.AssistantMessage message) hg with rfl | hg'
    · exact absurd (by cases l <;> rfl) hkeys
    · exact ⟨g, hg', rfl, rfl⟩
  | output index exec =>
    obtain rfl := Option.some.inj hmake
    obtain ⟨old, hget, hid, hcall⟩ := hfit
    unfold Points
    rw [Lane.lookup_set_retained, Lane.lookup_records, set_retained_records_eq]
    apply (h l).transfer
    intro g hg _
    rcases mem_set_or_eq hget (.Exec exec) hg with rfl | hg'
    · exact ⟨.Exec exec, mem_set_self hget _, hid.symm, by cases l <;> simp [Lane.keys, hcall]⟩
    · exact ⟨g, hg', rfl, rfl⟩
  | enforce =>
    obtain ⟨hpruned, by_id, total, hs'⟩ := enforce_some hmake
    have hlookup : l.lookup s' = l.lookup s := by
      rw [hs']
      cases l <;> rfl
    unfold Points
    rw [hlookup]
    apply (h l).transfer
    intro g hg _
    exact pruned_mem hpruned l hg
  | truncate id =>
    obtain rfl := Option.some.inj hmake
    exact truncate_points (h l) id
  | restore snapshot =>
    obtain rfl := Option.some.inj hmake
    exact restore_points hrestore l

/-! ## No entry is missing -/

/-- The maps of a restored snapshot are built anew or cover its records. -/
def RestoresCovers : Move β → Prop
  | .restore snapshot => (∀ l : Lane, l.restored snapshot = ∅) ∨
      ∀ l : Lane, Complete l.keys (l.restored snapshot) (dedup_messages [] snapshot.records)
  | _ => True

/-- The records that a move takes out of the history. -/
def retired (s : HistoryState β) : Move β → List (HistoryRecord β)
  | .remove index | .replace index _ => s.records[index]?.toList
  | .truncate id => (s.truncate_after id).2
  | _ => []

/-- The records that stay when a move takes records out. -/
def remaining (s : HistoryState β) : Move β → List (HistoryRecord β)
  | .remove index | .replace index _ => s.records.eraseIdx index
  | .truncate id => (s.truncate_after id).1.records
  | _ => s.records

/-- The record that a move puts in the place of another. -/
def replacement : Move β → Option (HistoryRecord β)
  | .replace _ record => some record
  | _ => none

/-- No id is given up that another record still has: where an entry points to a record that is
taken out, no record that stays has the id, or the record in its place has it. -/
def KeepsShared (s : HistoryState β) (m : Move β) : Prop :=
  ∀ l : Lane, ∀ r ∈ retired s m, ∀ k ∈ l.keys r, (l.lookup s).lookup k = some r.id →
    ∀ g ∈ remaining s m, k ∈ l.keys g → ∃ r' ∈ replacement m, k ∈ l.keys r'

theorem mem_of_mem_set {records : List (HistoryRecord β)} {index : Nat}
    {new g : HistoryRecord β} (hg : g ∈ records.set index new) :
    g = new ∨ g ∈ records.eraseIdx index := by
  obtain ⟨i, hi, rfl⟩ := List.mem_iff_getElem.mp hg
  rw [List.getElem_set]
  split
  · exact .inl rfl
  · rename_i hne
    right
    rw [List.length_set] at hi
    exact List.mem_eraseIdx_iff_getElem.mpr ⟨i, hi, Ne.symm hne, rfl⟩

theorem pruned_mem_back {records records' : List (HistoryRecord β)}
    (h : List.Forall₂ Pruned records records') (l : Lane) {g' : HistoryRecord β}
    (hg : g' ∈ records') : ∃ g ∈ records, l.keys g = l.keys g' := by
  induction h with
  | nil => cases hg
  | cons hr _ ih =>
    rcases List.mem_cons.mp hg with rfl | hg
    · refine ⟨_, List.mem_cons_self, ?_⟩
      cases hr with
      | same => rfl
      | exec => cases l <;> rfl
    · obtain ⟨g, hg, h⟩ := ih hg
      exact ⟨g, List.mem_cons_of_mem _ hg, h⟩

theorem replace_covers {s : HistoryState β} {index : Nat} {existing : HistoryRecord β}
    (hget : s.records[index]? = some existing) {record : HistoryRecord β} {l : Lane}
    (h : Covers l s) (hshared : KeepsShared s (.replace index record)) :
    Covers l (s.replace_event index record).1 := by
  unfold Covers
  rw [replace_event_lookup hget, replace_event_records hget]
  intro g hg k hk
  rw [lookup_enroll]
  split
  · rfl
  · rename_i hnot
    rcases mem_of_mem_set hg with rfl | hg
    · exact absurd (by simpa using hk) hnot
    · rw [lookup_withdraw]
      split
      · rename_i hcond
        obtain ⟨r', hr', hk'⟩ := hshared l existing (by simp [retired, hget]) k hcond.1 hcond.2 g
          hg hk
        obtain rfl := Option.some.inj hr'
        exact absurd hk' hnot
      · exact h g (List.mem_of_mem_eraseIdx hg) k hk

theorem remove_covers {s : HistoryState β} {index : Nat} {existing : HistoryRecord β}
    (hget : s.records[index]? = some existing) {l : Lane} (h : Covers l s)
    (hshared : KeepsShared s (.remove index)) : Covers l (s.remove_event index).1 := by
  unfold Covers
  rw [remove_event_lookup hget, remove_event_records hget]
  have hothers : Complete l.keys (l.lookup s) (s.records.eraseIdx index) :=
    fun g hg => h g (List.mem_of_mem_eraseIdx hg)
  apply hothers.withdraw
  intro k hk hlookup g hg hkg
  obtain ⟨r', hr', _⟩ := hshared l existing (by simp [retired, hget]) k hk hlookup g hg hkg
  cases hr'

theorem truncate_covers {s : HistoryState β} {id : Nat} {l : Lane} (h : Covers l s)
    (hshared : KeepsShared s (.truncate id)) : Covers l (s.truncate_after id).1 := by
  rcases truncate_after_cases s id with ⟨hid, heq⟩ | heq | ⟨n, heq, hremoved⟩
  · rw [heq]
    intro g hg
    cases hg
  · rw [heq]
    exact h
  · have hkept : (s.truncate_after id).1.records = s.records.take n := by
      rw [heq]
      simp [recompute_next_id]
    have hlookup : l.lookup (s.truncate_after id).1 =
        withdraw_all HistoryRecord.id l.keys (l.lookup s) (s.records.drop n) := by
      rw [heq, Lane.lookup_rebuild_id_index, Lane.lookup_recompute_next_id,
        Lane.lookup_unregister_all, Lane.lookup_records]
    unfold Covers
    rw [hlookup, hkept]
    have hothers : Complete l.keys (l.lookup s) (s.records.take n) :=
      fun g hg => h g (List.mem_of_mem_take hg)
    apply hothers.withdraw_all
    intro r hr k hk hpoints g hg hkg
    obtain ⟨r', hr', _⟩ := hshared l r (by rw [retired, hremoved]; exact hr) k hk hpoints g
      (by rw [remaining, hkept]; exact hg) hkg
    cases hr'

theorem restore_covers {s : HistoryState β} {snapshot : HistorySnapshot β}
    (hrestore : RestoresCovers (.restore snapshot)) (l : Lane) :
    Covers l (s.restore snapshot) := by
  unfold Covers
  rw [restore_records]
  rcases restore_lookup_cases s snapshot with ⟨_, hl⟩ | ⟨hne, hl⟩
  · rw [hl]
    have hnone : Complete l.keys (∅ : Lookup Text Nat) ([] : List (HistoryRecord β)) :=
      fun g hg => by cases hg
    simpa using hnone.enroll_all (dedup_messages [] snapshot.records)
  · rw [hl]
    rcases hrestore with hempty | hcovers
    · exact absurd hempty hne
    · exact hcovers l

theorem make_covers {s s' : HistoryState β} {m : Move β} (h : ∀ l, Covers l s) (hfit : Fits s m)
    (hrestore : RestoresCovers m) (hshared : KeepsShared s m) (hmake : make s m = some s') :
    ∀ l, Covers l s' := by
  intro l
  cases m with
  | insert index record =>
    obtain rfl := Option.some.inj hmake
    unfold Covers
    rw [insert_event_lookup, insert_event_records]
    have hsub : ∀ g ∈ s.records.insertIdx (min index s.records.length)
        (record.with_id s.next_id), g ∈ s.records ∨ g = record.with_id s.next_id := by
      intro g hg
      rw [List.mem_insertIdx (by omega)] at hg
      exact hg.symm
    simpa using (h l).enroll s.next_id hsub
  | replace index record =>
    obtain rfl := Option.some.inj hmake
    rcases hget : s.records[index]? with _ | existing
    · rw [replace_event, hget]
      exact h l
    · exact replace_covers hget (h l) hshared
  | remove index =>
    obtain rfl := Option.some.inj hmake
    rcases hget : s.records[index]? with _ | existing
    · rw [remove_event, hget]
      exact h l
    · exact remove_covers hget (h l) hshared
  | refresh index message =>
    obtain rfl := Option.some.inj hmake
    unfold Covers
    rw [Lane.lookup_records]
    apply (h l).transfer
    intro g hg hkeys
    rcases mem_of_mem_set hg with rfl | hg
    · exact absurd (by cases l <;> rfl) hkeys
    · exact ⟨g, List.mem_of_mem_eraseIdx hg, rfl⟩
  | output index exec =>
    obtain rfl := Option.some.inj hmake
    obtain ⟨old, hget, hid, hcall⟩ := hfit
    unfold Covers
    rw [Lane.lookup_set_retained, Lane.lookup_records, set_retained_records_eq]
    apply (h l).transfer
    intro g hg _
    rcases mem_of_mem_set hg with rfl | hg
    · exact ⟨.Exec old, List.mem_of_getElem? hget, by cases l <;> simp [Lane.keys, hcall]⟩
    · exact ⟨g, List.mem_of_mem_eraseIdx hg, rfl⟩
  | enforce =>
    obtain ⟨hpruned, by_id, total, hs'⟩ := enforce_some hmake
    have hlookup : l.lookup s' = l.lookup s := by
      rw [hs']
      cases l <;> rfl
    unfold Covers
    rw [hlookup]
    apply (h l).transfer
    intro g hg _
    exact pruned_mem_back hpruned l hg
  | truncate id =>
    obtain rfl := Option.some.inj hmake
    exact truncate_covers (h l) hshared
  | restore snapshot =>
    obtain rfl := Option.some.inj hmake
    exact restore_covers hrestore l

/-! ## Snapshots -/

/-- `restore` drops messages only, and they are in no map. -/
theorem mem_dedup_messages (l : Lane) {records : List (HistoryRecord β)} {g : HistoryRecord β}
    (hg : g ∈ records) (hkeys : l.keys g ≠ []) (seen_streams : List Text) :
    g ∈ dedup_messages seen_streams records := by
  induction records generalizing seen_streams with
  | nil => cases hg
  | cons record records ih =>
    cases record with
    | AssistantMessage state =>
      have hrest : g ∈ records := by
        rcases List.mem_cons.mp hg with rfl | hg
        · exact absurd (by cases l <;> rfl) hkeys
        · exact hg
      simp only [dedup_messages]
      split
      · split
        · exact ih hrest _
        · exact List.mem_cons_of_mem _ (ih hrest _)
      · exact List.mem_cons_of_mem _ (ih hrest _)
    | _ =>
      rcases List.mem_cons.mp hg with rfl | hg
      · exact List.mem_cons_self
      · exact List.mem_cons_of_mem _ (ih hg _)

/-- The snapshot of a history with right maps is one that can be restored. -/
theorem snapshot_keeps_lookups {s : HistoryState β} (hpoints : ∀ l, Points l s)
    (hcovers : ∀ l, Covers l s) :
    RestoresPoints (.restore s.snapshot) ∧ RestoresCovers (.restore s.snapshot) := by
  have hmaps : ∀ l : Lane, l.restored s.snapshot = l.lookup s := by
    intro l
    cases l <;> rfl
  refine ⟨?_, .inr ?_⟩
  · intro l
    rw [hmaps]
    apply (hpoints l).transfer
    intro g hg hkeys
    exact ⟨g, mem_dedup_messages l hg hkeys [], rfl, rfl⟩
  · intro l
    rw [hmaps]
    apply (hcovers l).transfer
    intro g hg _
    exact ⟨g, (dedup_messages_sublist [] s.records).subset hg, rfl⟩

/-! ## Every run -/

/-- Every entry of the maps points to a record that is there and has the id. -/
def entries_point (ids : Lane → HistoryRecord β → List Text) (s : HistoryState β) : Prop :=
  ∀ (l : Lane) (k : Text) (id : Nat), (l.lookup s).lookup k = some id →
    ∃ record ∈ s.records, record.id = id ∧ k ∈ ids l record

/-- Every id of a record that is there is found, and leads to a record with that id. -/
def ids_found (ids : Lane → HistoryRecord β → List Text) (s : HistoryState β) : Prop :=
  ∀ (l : Lane), ∀ record ∈ s.records, ∀ k ∈ ids l record,
    ∃ id, (l.lookup s).lookup k = some id ∧
      ∃ found ∈ s.records, found.id = id ∧ k ∈ ids l found

/-- The ids that a record carries: those it is registered under, and the stream of a message. -/
def Lane.carried : Lane → HistoryRecord β → List Text
  | .stream, .AssistantMessage state => state.stream_id.toList
  | l, record => l.keys record

/-- A restored snapshot has entries that point to its records. -/
def pointing_step (s : HistoryState β) (op : Op β) : Prop :=
  ∀ ms, moves s op = some ms → ∀ m ∈ ms, RestoresPoints m

/-- Moreover the maps of a restored snapshot are all empty or miss no record, and no id is given
up that a record which stays has too. -/
def lookup_step (s : HistoryState β) (op : Op β) : Prop :=
  pointing_step s op ∧ ∀ ms, moves s op = some ms → ∀ m ∈ ms, RestoresCovers m ∧ KeepsShared s m

theorem points_in_every_run {s : HistoryState β}
    (h : Reached step HistoryState.new pointing_step s) : ∀ l, Points l s := by
  apply run_keeps (Q := fun _ m => RestoresPoints m) (I := fun s => ∀ l, Points l s) _ _ _ _ h
  · intro l
    cases l <;> exact Sound.empty
  · intro s m s' hs hfit hq hmake
    exact make_points hs hfit hq hmake
  · intro s m m' t _ _ _ _ _ hq
    exact hq
  · intro s op _ hop
    exact hop

/-- The maps of a restored snapshot are all empty or miss no record, and no id is given up that a
record which stays has too. -/
def covering_step (s : HistoryState β) (op : Op β) : Prop :=
  ∀ ms, moves s op = some ms → ∀ m ∈ ms, RestoresCovers m ∧ KeepsShared s m

theorem covers_in_every_run {s : HistoryState β}
    (h : Reached step HistoryState.new covering_step s) : ∀ l, Covers l s := by
  apply run_keeps (Q := fun s m => RestoresCovers m ∧ KeepsShared s m)
    (I := fun s => ∀ l, Covers l s) _ _ _ _ h
  · intro l g hg
    cases hg
  · intro s m s' hs hfit hq hmake
    exact make_covers hs hfit hq.1 hq.2 hmake
  · intro s m m' t _ _ _ hfollows _ hq
    refine ⟨hq.1, ?_⟩
    -- the second move of an operation takes no record out
    intro l r hr
    cases hfollows <;> cases hr
  · intro s op _ hop
    exact hop

/-- In every run the entries point to records, and while no shared id is given up the ids that
records are registered under are found. -/
theorem lookups_hold_in_every_run (s : HistoryState β) :
    (Reached step HistoryState.new pointing_step s → entries_point Lane.keys s) ∧
    (Reached step HistoryState.new lookup_step s → ids_found Lane.keys s) := by
  refine ⟨fun h l => points_in_every_run h l, ?_⟩
  intro h l record hrecord k hk
  have hpoints : ∀ l, Points l s := points_in_every_run (h.mono fun _ _ hop => hop.1)
  have hcovers : ∀ l, Covers l s := covers_in_every_run (h.mono fun _ _ hop => hop.2)
  obtain ⟨id, hid⟩ := Option.isSome_iff_exists.mp (hcovers l record hrecord k hk)
  exact ⟨id, hid, hpoints l k id hid⟩

/-- A tool call. -/
def tool_call : HistoryRecord Unit := .ToolCall ⟨0, some "call".toList, ()⟩

theorem lookups_hold_after_push :
    ∃ s : HistoryState Unit, step HistoryState.new (.push tool_call) = some s ∧
      s.tool_call_lookup.lookup "call".toList = some 1 ∧ entries_point Lane.keys s ∧
      ids_found Lane.keys s := by
  have hpoint : pointing_step HistoryState.new (.push tool_call) := by
    intro ms hms m hm
    obtain rfl := Option.some.inj hms
    obtain rfl := List.mem_singleton.mp hm
    trivial
  have hlookup : lookup_step HistoryState.new (.push tool_call) := by
    refine ⟨hpoint, ?_⟩
    intro ms hms m hm
    obtain rfl := Option.some.inj hms
    obtain rfl := List.mem_singleton.mp hm
    refine ⟨trivial, ?_⟩
    intro l r hr
    cases hr
  refine ⟨_, rfl, by decide +kernel, (lookups_hold_in_every_run _).1 ?_,
    (lookups_hold_in_every_run _).2 ?_⟩
  · exact .step (a := .push tool_call) .start hpoint rfl
  · exact .step (a := .push tool_call) .start hlookup rfl

/-- The message that ends a stream carries the id of the stream and is in no map. -/
theorem message_of_a_stream_is_not_found :
    ¬ ∀ s : HistoryState Unit, Reached step HistoryState.new (fun _ _ => True) s →
      entries_point Lane.carried s ∧ ids_found Lane.carried s := by
  intro hall
  have hs := (hall _ (.step (a := .finalize_assistant_stream_state 0 (some "s".toList) [] none none)
    .start trivial rfl)).2
  obtain ⟨id, hid, _⟩ := hs .stream _ List.mem_cons_self "s".toList (by simp [Lane.carried])
  have hnone : (Lane.stream.lookup (HistoryState.new.finalize_assistant_stream_state (β := Unit) 0
      (some "s".toList) [] none none).1).lookup "s".toList = none := by decide +kernel
  rw [hnone] at hid
  cases hid

end Ecode.history
