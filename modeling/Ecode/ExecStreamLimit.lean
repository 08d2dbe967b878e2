-- The limit on all output that a history keeps (core/src/history/state.rs): the oldest commands
-- are pruned until the total is within it, or until there is no command left to prune.
import Ecode.ExecStreamOrder
import Ecode.HistoryBytes

namespace Ecode.history

open registry runs ledger HistoryState

variable {β : Type}

/-! ## The loop over the records -/

/-- Both streams are within the size that the limit prunes them to. -/
def AtTarget (exec : ExecRecord β) : Prop :=
  retained_stream_len exec.stdout_chunks ≤ EXEC_STREAM_PRUNE_TARGET_BYTES ∧
    retained_stream_len exec.stderr_chunks ≤ EXEC_STREAM_PRUNE_TARGET_BYTES

/-- What pruning leaves of a record: of a command both streams are pruned. -/
inductive PrunedToTarget : HistoryRecord β → HistoryRecord β → Prop
  | command {exec : ExecRecord β} {stdout_chunks stderr_chunks : List ExecStreamChunk} :
    prune_exec_stream exec.stdout_chunks EXEC_STREAM_PRUNE_TARGET_BYTES = some stdout_chunks →
    prune_exec_stream exec.stderr_chunks EXEC_STREAM_PRUNE_TARGET_BYTES = some stderr_chunks →
    AtTarget { exec with stdout_chunks, stderr_chunks } →
    PrunedToTarget (.Exec exec) (.Exec { exec with stdout_chunks, stderr_chunks })
  | other {record : HistoryRecord β} : (∀ exec, record ≠ .Exec exec) → PrunedToTarget record record

theorem prune_of_retained_le {chunks : List ExecStreamChunk} {max_bytes : Nat}
    (h : retained_stream_len chunks ≤ max_bytes) :
    prune_exec_stream chunks max_bytes = some chunks :=
  if_pos h

/-- A command that keeps no bytes is left as it is. -/
theorem pruned_of_empty {exec : ExecRecord β} (h : kept_bytes exec = 0) :
    PrunedToTarget (.Exec exec) (.Exec exec) := by
  have hsum : retained_stream_len exec.stdout_chunks + retained_stream_len exec.stderr_chunks = 0 :=
    h
  have htarget : AtTarget exec := ⟨by omega, by omega⟩
  exact .command (prune_of_retained_le htarget.1) (prune_of_retained_le htarget.2) htarget

theorem retained_prune_le_self {chunks chunks' : List ExecStreamChunk} {max_bytes : Nat}
    (h : InOrder chunks) (hprune : prune_exec_stream chunks max_bytes = some chunks') :
    retained_stream_len chunks' ≤ retained_stream_len chunks := by
  rcases Nat.le_total (retained_stream_len chunks) max_bytes with hle | hge
  · obtain rfl := Option.some.inj ((prune_of_retained_le hle).symm.trans hprune)
    exact Nat.le_refl _
  · exact Nat.le_trans (retained_prune_le h hprune) hge

/-- The records that the limit leaves: of a beginning of the history every command is pruned, the
rest is untouched, and it is empty unless the total is within the limit. -/
structure OldestPruned (before after : List (HistoryRecord β)) (total : Nat) : Prop where
  split : ∃ older older' newer, before = older ++ newer ∧ after = older' ++ newer ∧
    List.Forall₂ PrunedToTarget older older' ∧
      (total ≤ GLOBAL_EXEC_STREAM_RETAINED_BYTES ∨ newer = [])

theorem OldestPruned.cons {before after : List (HistoryRecord β)} {total : Nat}
    {record record' : HistoryRecord β} (hrecord : PrunedToTarget record record')
    (h : OldestPruned before after total) :
    OldestPruned (record :: before) (record' :: after) total := by
  obtain ⟨older, older', newer, rfl, rfl, hpruned, hdone⟩ := h.split
  exact ⟨record :: older, record' :: older', newer, rfl, rfl, .cons hrecord hpruned, hdone⟩

theorem OldestPruned.within {records : List (HistoryRecord β)} {total : Nat}
    (h : total ≤ GLOBAL_EXEC_STREAM_RETAINED_BYTES) : OldestPruned records records total :=
  ⟨[], [], records, rfl, rfl, .nil, .inl h⟩

/-- The loop passes a record that is no command. -/
theorem enforce_records_other {record : HistoryRecord β} (h : ∀ exec, record ≠ .Exec exec)
    (bytes_to_drop : Nat) (by_id : Lookup Nat Nat) (total : Nat)
    (records : List (HistoryRecord β)) :
    enforce_records bytes_to_drop by_id total (record :: records) =
      (enforce_records bytes_to_drop by_id total records).map fun result =>
        (record :: result.1, result.2) := by
  have hbind : enforce_records bytes_to_drop by_id total (record :: records) =
      (enforce_records bytes_to_drop by_id total records).bind fun result =>
        some (record :: result.1, result.2.1, result.2.2) := by
    cases record with
    | Exec exec => exact absurd rfl (h exec)
    | _ => rfl
  rw [hbind]
  cases enforce_records bytes_to_drop by_id total records with
  | none => rfl
  | some result => rfl

theorem entries_other {record : HistoryRecord β} (h : ∀ exec, record ≠ .Exec exec)
    (records : List (HistoryRecord β)) : entries (record :: records) = entries records := by
  rw [entries_cons]
  cases record with
  | Exec exec => exact absurd rfl (h exec)
  | _ => rfl

/-- The loop prunes from the oldest record on until what is over the limit is gone. -/
theorem enforce_records_oldest {total total' : Nat} {by_id by_id' : Lookup Nat Nat}
    {records records' : List (HistoryRecord β)} (before : List (Nat × Nat))
    (h : enforce_records (total - GLOBAL_EXEC_STREAM_RETAINED_BYTES) by_id total records =
      some (records', by_id', total'))
    (hb : Balanced total by_id (before ++ entries records))
    (hroom : (before.map Prod.snd).sum + ends records ≤ U64_MAX)
    (horder : ∀ exec, .Exec exec ∈ records → StreamsInOrder exec) :
    OldestPruned records records' total' := by
  induction records generalizing by_id total records' by_id' total' before with
  | nil =>
    cases h
    exact ⟨[], [], [], rfl, rfl, .nil, .inr rfl⟩
  | cons record records ih =>
    have hends : ends (record :: records) = stream_end record + ends records := rfl
    have hrest_order : ∀ exec, .Exec exec ∈ records → StreamsInOrder exec :=
      fun exec hmem => horder exec (List.mem_cons_of_mem _ hmem)
    by_cases hexec : ∃ exec, record = .Exec exec
    · obtain ⟨exec, rfl⟩ := hexec
      have hkept := kept_bytes_le exec
      simp only [enforce_records] at h
      split_ifs at h with hwithin hempty
      · cases h
        exact .within (Nat.le_of_sub_eq_zero hwithin)
      · obtain ⟨⟨rest, b, n⟩, hrest, h⟩ := Option.bind_eq_some_iff.mp h
        cases h
        rw [(lookup_at_loop hb).lookup_head, Option.getD_some] at hempty
        rw [entries_exec] at hb
        refine .cons (pruned_of_empty hempty) (ih _ hrest hb ?_ hrest_order)
        rw [sum_concat_entry]
        omega
      · obtain ⟨out, hout, h⟩ := Option.bind_eq_some_iff.mp h
        obtain ⟨err, herr, h⟩ := Option.bind_eq_some_iff.mp h
        obtain ⟨⟨rest, b, n⟩, hrest, h⟩ := Option.bind_eq_some_iff.mp h
        cases h
        obtain ⟨hstdout, hstderr⟩ := horder exec List.mem_cons_self
        have hlen : stream_end (.Exec { exec with stdout_chunks := out, stderr_chunks := err }) ≤
            stream_end (.Exec exec) :=
          Nat.add_le_add (prune_exec_stream_len hout) (prune_exec_stream_len herr)
        have hid : ({ exec with stdout_chunks := out, stderr_chunks := err } : ExecRecord β).id =
            exec.id := rfl
        have hless : kept_bytes { exec with stdout_chunks := out, stderr_chunks := err } ≤
            kept_bytes exec :=
          Nat.add_le_add (retained_prune_le_self hstdout hout) (retained_prune_le_self hstderr herr)
        obtain ⟨hretained, hsettled, hbalanced, hfits⟩ := settle_at_loop hb hroom hid hlen
        have hprev := (lookup_at_loop hb).prev_le
        simp only [(lookup_at_loop hb).lookup_head, hretained, Option.getD_some] at hrest
        -- What is still to be dropped is what the new total is over the limit.
        have hdrop : total - GLOBAL_EXEC_STREAM_RETAINED_BYTES - (kept_bytes exec -
            kept_bytes { exec with stdout_chunks := out, stderr_chunks := err }) =
              total - kept_bytes exec +
                kept_bytes { exec with stdout_chunks := out, stderr_chunks := err } -
                  GLOBAL_EXEC_STREAM_RETAINED_BYTES := by omega
        rw [hsettled, hdrop] at hrest
        have hpruned := PrunedToTarget.command hout herr
          ⟨retained_prune_le hstdout hout, retained_prune_le hstderr herr⟩
        exact .cons hpruned (ih _ hrest hbalanced hfits hrest_order)
    · have hother : ∀ exec, record ≠ .Exec exec := fun exec heq => hexec ⟨exec, heq⟩
      rw [enforce_records_other hother] at h
      obtain ⟨⟨rest, b, n⟩, hrest, heq⟩ := Option.map_eq_some_iff.mp h
      cases heq
      rw [entries_other hother] at hb
      exact .cons (.other hother) (ih before hrest hb (by omega) hrest_order)

/-- With characters of one byte the loop does not panic. -/
theorem enforce_records_returns {records : List (HistoryRecord β)}
    (hascii : ∀ exec, .Exec exec ∈ records → StreamsAscii exec) (bytes_to_drop : Nat)
    (by_id : Lookup Nat Nat) (total : Nat) :
    ∃ result, enforce_records bytes_to_drop by_id total records = some result := by
  induction records generalizing bytes_to_drop by_id total with
  | nil => exact ⟨_, rfl⟩
  | cons record records ih =>
    have hrest : ∀ exec, .Exec exec ∈ records → StreamsAscii exec :=
      fun exec hmem => hascii exec (List.mem_cons_of_mem _ hmem)
    by_cases hexec : ∃ exec, record = .Exec exec
    · obtain ⟨exec, rfl⟩ := hexec
      rw [enforce_records]
      split
      · exact ⟨_, rfl⟩
      · dsimp only
        split
        · obtain ⟨result, hresult⟩ := ih hrest bytes_to_drop by_id total
          rw [hresult]
          exact ⟨_, rfl⟩
        · obtain ⟨hstdout, hstderr⟩ := hascii exec List.mem_cons_self
          obtain ⟨out, hout, -⟩ := prune_exec_stream_returns hstdout EXEC_STREAM_PRUNE_TARGET_BYTES
          obtain ⟨err, herr, -⟩ := prune_exec_stream_returns hstderr EXEC_STREAM_PRUNE_TARGET_BYTES
          rw [hout, herr]
          simp only [Option.bind_eq_bind, Option.bind_some]
          obtain ⟨result, hresult⟩ := ih hrest _ _ _
          rw [hresult]
          exact ⟨_, rfl⟩
    · obtain ⟨result, hresult⟩ := ih hrest bytes_to_drop by_id total
      rw [enforce_records_other fun exec heq => hexec ⟨exec, heq⟩, hresult]
      exact ⟨_, rfl⟩

/-! ## The limit on a history -/

/-- All bytes that the commands keep. -/
def total_kept (s : HistoryState β) : Nat := ((entries s.records).map Prod.snd).sum

/-- The total is within the limit, or all commands are pruned to the target. -/
def WithinLimit (s : HistoryState β) : Prop :=
  total_kept s ≤ GLOBAL_EXEC_STREAM_RETAINED_BYTES ∨ ∀ exec, .Exec exec ∈ s.records → AtTarget exec

/-- The limit holds; and of a beginning of the history every command is pruned to the target, while
the rest is untouched. -/
structure LimitEnforced (written after : HistoryState β) : Prop where
  limit : WithinLimit after
  oldest_first : ∃ older older' newer, written.records = older ++ newer ∧
    after.records = older' ++ newer ∧ List.Forall₂ PrunedToTarget older older'

theorem at_target_of_pruned {older older' : List (HistoryRecord β)}
    (h : List.Forall₂ PrunedToTarget older older') {exec : ExecRecord β}
    (hmem : .Exec exec ∈ older') : AtTarget exec := by
  induction h with
  | nil => cases hmem
  | cons hrecord _ ih =>
    rcases List.mem_cons.mp hmem with rfl | hmem
    · cases hrecord with
      | command _ _ htarget => exact htarget
      | other hother => exact absurd rfl (hother exec)
    · exact ih hmem

theorem enforce_limit {written after : HistoryState β}
    (h : written.enforce_exec_stream_global_limit = some after)
    (hcounts : Counts written (entries written.records)) (hroom : ends written.records ≤ U64_MAX)
    (horder : ∀ exec, .Exec exec ∈ written.records → StreamsInOrder exec) :
    LimitEnforced written after := by
  have htotal := (enforce_counts h hcounts hroom).total_eq
  have hpruned : OldestPruned written.records after.records
      after.exec_stream_retained_total_bytes := by
    unfold enforce_exec_stream_global_limit at h
    split at h
    · next hwithin =>
      obtain rfl := Option.some.inj h
      exact .within hwithin
    · obtain ⟨⟨records, by_id, total⟩, hrecords, h⟩ := Option.bind_eq_some_iff.mp h
      obtain rfl := Option.some.inj h
      exact enforce_records_oldest [] hrecords hcounts (by simpa using hroom) horder
  obtain ⟨older, older', newer, hbefore, hafter, hall, hdone⟩ := hpruned.split
  refine ⟨?_, older, older', newer, hbefore, hafter, hall⟩
  rcases hdone with hwithin | rfl
  · left
    rw [total_kept, ← htotal]
    exact hwithin
  · right
    intro exec hmem
    rw [hafter, List.append_nil] at hmem
    exact at_target_of_pruned hall hmem

theorem enforce_returns {s : HistoryState β}
    (hascii : ∀ exec, .Exec exec ∈ s.records → StreamsAscii exec) :
    ∃ after, s.enforce_exec_stream_global_limit = some after := by
  unfold enforce_exec_stream_global_limit
  split
  · exact ⟨s, rfl⟩
  · obtain ⟨result, hresult⟩ := enforce_records_returns hascii
      (s.exec_stream_retained_total_bytes - GLOBAL_EXEC_STREAM_RETAINED_BYTES)
      s.exec_stream_retained_by_id s.exec_stream_retained_total_bytes
    rw [hresult]
    exact ⟨_, rfl⟩

/-- The command at `i` stays as it is when it is within the target. -/
theorem LimitEnforced.keeps_small {written after : HistoryState β} (h : LimitEnforced written after)
    {i : Nat} {exec : ExecRecord β} (hget : written.records[i]? = some (.Exec exec))
    (htarget : AtTarget exec) : after.records[i]? = some (.Exec exec) := by
  obtain ⟨older, older', newer, hbefore, hafter, hall⟩ := h.oldest_first
  rw [hbefore] at hget
  rw [hafter]
  clear hbefore hafter
  induction hall generalizing i with
  | nil => exact hget
  | cons hrecord _ ih =>
    cases i with
    | zero =>
      obtain rfl := Option.some.inj hget
      cases hrecord with
      | command hout herr _ =>
        obtain rfl := Option.some.inj ((prune_of_retained_le htarget.1).symm.trans hout)
        obtain rfl := Option.some.inj ((prune_of_retained_le htarget.2).symm.trans herr)
        rfl
      | other _ => rfl
    | succ i => exact ih hget

/-- One command with more than the limit is too much. -/
theorem not_within_of_mem {s : HistoryState β} {exec : ExecRecord β} (hmem : .Exec exec ∈ s.records)
    (hover : GLOBAL_EXEC_STREAM_RETAINED_BYTES < retained_stream_len exec.stdout_chunks) :
    ¬ WithinLimit s := by
  rintro (htotal | hall)
  · have hentry : (exec.id, kept_bytes exec) ∈ entries s.records :=
      mem_entries_iff.mpr ⟨exec, hmem, rfl, rfl⟩
    have hle : kept_bytes exec ≤ total_kept s :=
      List.le_sum_of_mem (List.mem_map_of_mem hentry)
    have hstdout : retained_stream_len exec.stdout_chunks ≤ kept_bytes exec := Nat.le_add_right _ _
    omega
  · have htarget := (hall exec hmem).1
    have hless : EXEC_STREAM_PRUNE_TARGET_BYTES < GLOBAL_EXEC_STREAM_RETAINED_BYTES := by decide
    omega

end Ecode.history
