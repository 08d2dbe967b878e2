-- Snapshots of the history: restoring one into a fresh history gives the history that it was
-- taken of, while no call or stream is shared and the index and the counts are right.
import Ecode.HistoryBytes

namespace Ecode.history

open registry runs ledger HistoryState

variable {β : Type}

/-! ## No shared calls and streams -/

/-- No call or stream id is carried by two records. -/
def Unshared (s : HistoryState β) : Prop :=
  ∀ l : Lane, s.records.Pairwise fun r g => ∀ k ∈ l.carried r, k ∉ l.carried g

theorem keys_carried (l : Lane) (record : HistoryRecord β) : l.keys record ⊆ l.carried record := by
  cases l <;> cases record <;> simp [Lane.keys, Lane.carried]

/-- A record that is taken out shares no id with those that stay. -/
theorem Unshared.erase {s : HistoryState β} (h : Unshared s) {index : Nat} {old : HistoryRecord β}
    (hget : s.records[index]? = some old) (l : Lane) {g : HistoryRecord β}
    (hg : g ∈ s.records.eraseIdx index) {k : Text} (hk : k ∈ l.keys old) : k ∉ l.keys g := by
  have hpairwise : (old :: s.records.eraseIdx index).Pairwise
      fun r g => ∀ k ∈ l.carried r, k ∉ l.carried g :=
    (erase_perm hget).pairwise (h l) fun hdisjoint k hk hk' => hdisjoint k hk' hk
  intro hk'
  exact (List.pairwise_cons.mp hpairwise).1 g hg k (keys_carried l old hk) (keys_carried l g hk')

/-- `truncate_after` takes out what stands behind a place, and keeps what stands before it. -/
theorem truncate_after_cut (s : HistoryState β) (id : Nat) :
    ∃ n, (s.truncate_after id).2 ⊆ s.records.drop n ∧
      (s.truncate_after id).1.records ⊆ s.records.take n := by
  unfold truncate_after
  split_ifs
  · exact ⟨0, List.Subset.refl _, List.nil_subset _⟩
  · split
    · exact ⟨s.records.length, List.nil_subset _, by simp⟩
    · next pos _ =>
      split_ifs
      · exact ⟨s.records.length, List.nil_subset _, by simp⟩
      · exact ⟨pos + 1, List.Subset.refl _, by simp [recompute_next_id]⟩

/-- So no id is given up that another record has. -/
theorem Unshared.keeps_shared {s : HistoryState β} (h : Unshared s) (m : Move β) :
    KeepsShared s m := by
  intro l r hr k hk _ g hg hkg
  exfalso
  cases m with
  | remove index | replace index record =>
    exact h.erase (Option.mem_toList.mp hr) l hg hk hkg
  | truncate id =>
    obtain ⟨n, hremoved, hkept⟩ := truncate_after_cut s id
    have hpairwise := h l
    rw [← List.take_append_drop n s.records, List.pairwise_append] at hpairwise
    exact hpairwise.2.2 g (hkept hg) r (hremoved hr) k (keys_carried l g hkg) (keys_carried l r hk)
  | insert | refresh | output | enforce | restore => cases hr

/-- No message is dropped when a history without shared streams is restored. -/
theorem dedup_messages_eq {records : List (HistoryRecord β)}
    (h : records.Pairwise fun r g => ∀ k ∈ Lane.stream.carried r, k ∉ Lane.stream.carried g)
    (seen_streams : List Text)
    (hseen : ∀ r ∈ records, ∀ k ∈ seen_streams, k ∉ Lane.stream.carried r) :
    dedup_messages seen_streams records = records := by
  induction records generalizing seen_streams with
  | nil => rfl
  | cons record records ih =>
    obtain ⟨hfirst, hrest⟩ := List.pairwise_cons.mp h
    have hseen' : ∀ r ∈ records, ∀ k ∈ seen_streams, k ∉ Lane.stream.carried r :=
      fun r hr => hseen r (List.mem_cons_of_mem record hr)
    cases record with
    | AssistantMessage state =>
      unfold dedup_messages
      split
      · next stream_id hstream =>
        have hcarried : stream_id ∈ Lane.stream.carried (HistoryRecord.AssistantMessage state) := by
          simp [Lane.carried, hstream]
        have hnew : stream_id ∉ seen_streams :=
          fun hmem => hseen _ List.mem_cons_self stream_id hmem hcarried
        rw [if_neg hnew, ih hrest]
        intro r hr k hk
        rcases List.mem_cons.mp hk with rfl | hk
        · exact hfirst r hr k hcarried
        · exact hseen' r hr k hk
      · rw [ih hrest seen_streams hseen']
    | _ =>
      exact congrArg (_ :: ·) (ih hrest seen_streams hseen')

/-! ## A restored history -/

attribute [ext] HistoryState

/-- The maps that are restored are those of the history: when all are empty, the records have no
ids to build them from. -/
theorem restored_lookup {s : HistoryState β} (hcovers : ∀ l, Covers l s)
    (hdedup : dedup_messages [] s.records = s.records) (l : Lane) :
    l.lookup (HistoryState.new.restore s.snapshot) = l.lookup s := by
  have hmaps : ∀ l : Lane, l.restored s.snapshot = l.lookup s := by
    intro l
    cases l <;> rfl
  rcases restore_lookup_cases HistoryState.new s.snapshot with ⟨hempty, hl⟩ | ⟨_, hl⟩
  · have hnone : ∀ record ∈ s.records, l.keys record = [] := by
      intro record hrecord
      refine List.eq_nil_iff_forall_not_mem.mpr fun k hk => ?_
      have hsome := hcovers l record hrecord k hk
      rw [← hmaps, hempty] at hsome
      cases hsome
    rw [hl, ← hmaps, hempty]
    have hrecords : dedup_messages [] s.snapshot.records = s.records := hdedup
    rw [hrecords]
    exact enroll_all_of_nil hnone
  · rw [hl, hmaps]

theorem restore_snapshot_eq {s : HistoryState β} (hids : IdsOk s.ids s.next_id)
    (hindexed : Indexed s) (hends : ends s.records ≤ U64_MAX)
    (hcounts : Counts s (entries s.records)) (hcovers : ∀ l, Covers l s) (hunshared : Unshared s) :
    HistoryState.new.restore s.snapshot = s := by
  have hdedup : dedup_messages [] s.records = s.records :=
    dedup_messages_eq (hunshared .stream) [] fun _ _ k hk => absurd hk List.not_mem_nil
  have hrecords : (HistoryState.new.restore s.snapshot).records = s.records :=
    (restore_records _ _).trans hdedup
  have hsnapshot : dedup_messages [] s.snapshot.records = s.records := hdedup
  have hcounted : Counts (HistoryState.new.restore s.snapshot) (entries s.records) := by
    rw [← hsnapshot]
    exact restore_counts (hsnapshot.symm ▸ hids) (hsnapshot.symm ▸ hends)
  obtain ⟨htotal, hby_id⟩ := hcounted.unique hcounts
  have hlookup := restored_lookup hcovers hdedup
  have hindex : (HistoryState.new.restore s.snapshot).id_index = s.id_index := by
    have hrestored : Indexed (HistoryState.new.restore s.snapshot) := rfl
    rw [hrestored, hindexed, HistoryState.ids, HistoryState.ids, hrecords]
  exact HistoryState.ext hrecords (restore_next_id _ _) (hlookup .exec) (hlookup .tool)
    (hlookup .stream) hindex htotal hby_id

/-! ## Every run -/

/-- A fresh history into which the snapshot of the history is restored has its records, gives the
same answers, counts the same bytes, gives ids above all that are there, and goes on as it does. -/
def round_trips (s : HistoryState β) : Prop :=
  let restored := HistoryState.new.restore s.snapshot
  restored.records = s.records ∧
  (∀ id, restored.index_of id = s.index_of id) ∧
  (∀ (l : Lane) (k : Text), (l.lookup restored).lookup k = (l.lookup s).lookup k) ∧
  restored.exec_stream_retained_total_bytes = s.exec_stream_retained_total_bytes ∧
  (∀ id, restored.exec_stream_retained_by_id.lookup id =
    s.exec_stream_retained_by_id.lookup id) ∧
  (∀ id ∈ s.ids, id < restored.next_id) ∧
  ∀ ops : List (Op β), (ops.foldlM step restored).map HistoryState.records =
    (ops.foldlM step s).map HistoryState.records

/-- No call or stream is shared, the ids and the index are kept, the bytes fit, and the maps of a
restored snapshot are all empty or miss no record. -/
def round_trip_step (s : HistoryState β) (op : Op β) : Prop :=
  Unshared s ∧ identity_step s op ∧ bytes_fit s op ∧
    ∀ ms, moves s op = some ms → ∀ m ∈ ms, RestoresCovers m

/-- In every run of such steps a snapshot restores the history. -/
theorem snapshot_restores_in_every_run {s : HistoryState β}
    (h : Reached step HistoryState.new round_trip_step s) (hunshared : Unshared s) :
    round_trips s := by
  obtain ⟨hids, hindexed⟩ := indexed_in_every_run (h.mono fun _ _ hop => hop.2.1)
  obtain ⟨-, hends, hcounts⟩ := counts_in_every_run
    (h.mono fun s op hop => ⟨fun ms hms m hm => (hop.2.1 ms hms m hm).1, hop.2.2.1⟩)
  have hcovers : ∀ l, Covers l s := covers_in_every_run
    (h.mono fun s op hop ms hms m hm => ⟨hop.2.2.2 ms hms m hm, hop.1.keeps_shared m⟩)
  have heq := restore_snapshot_eq hids hindexed hends hcounts hcovers hunshared
  unfold round_trips
  rw [heq]
  exact ⟨rfl, fun _ => rfl, fun _ _ => rfl, rfl, fun _ => rfl, hids.below, fun _ => rfl⟩

/-- A command with output is restored. -/
theorem command_is_restored :
    ∃ s : HistoryState Unit, step HistoryState.new (.push (command [⟨0, "ab".toList⟩])) = some s ∧
      s.records.length = 1 ∧ round_trips s := by
  have hstart : Unshared (HistoryState.new : HistoryState Unit) := fun _ => .nil
  have hfit : bytes_fit HistoryState.new (.push (command [⟨0, "ab".toList⟩])) := by
    unfold bytes_fit
    decide +kernel
  refine ⟨_, rfl, rfl, snapshot_restores_in_every_run
    (.step (a := .push (command [⟨0, "ab".toList⟩])) .start ⟨hstart, ?_, hfit, ?_⟩ rfl)
    fun _ => List.pairwise_singleton _ _⟩
  · intro ms hms m hm
    obtain rfl := Option.some.inj hms
    obtain rfl := List.mem_singleton.mp hm
    exact ⟨by simp [KeepsIds, HistoryState.new, U64_MAX], trivial⟩
  · intro ms hms m hm
    obtain rfl := Option.some.inj hms
    obtain rfl := List.mem_singleton.mp hm
    trivial

/-- After `push` and `truncate_after(HistoryId::ZERO)` the history still finds the record that is
gone, and a restored one does not. -/
theorem cleared_history_is_not_restored :
    ¬ ∀ s : HistoryState Unit, Reached step HistoryState.new (fun s _ => Unshared s) s →
      Unshared s → round_trips s := by
  intro hall
  have hstart : Unshared (HistoryState.new : HistoryState Unit) := fun _ => .nil
  have hpushed : Unshared (HistoryState.new.push notice).1 := fun _ => List.pairwise_singleton _ _
  have hs := hall _ (.step (.step .start (a := .push notice) hstart rfl)
    (a := .truncate_after 0) hpushed rfl) fun _ => .nil
  exact absurd (hs.2.1 1) (by decide +kernel)

end Ecode.history
