-- The order of the replacements (apply-patch/src/lib.rs): when the regions of the chunks follow
-- one another in the order of the chunks, and their new lines come out in that order.
import Ecode.PatchRegions

namespace Ecode.apply_patch

/-! ## Chunks in turn -/

/-- Each chunk is placed after the chunk before it, whose region ends at `end_index`. Chunks
without old lines go to the end in any case. Old lines at the end of the file are looked for just
there, and there are enough lines left for them. Other old lines are looked for from the line
index on, and not found before the end of that region. -/
def in_turn (lines : List Text) (path : Path) : List UpdateFileChunk → Nat → Nat → Bool
  | [], _, _ => true
  | chunk :: chunks, line_index, end_index =>
    match seek_context lines path chunk line_index with
    | .error _ => true
    | .ok i =>
      if chunk.old_lines.isEmpty then
        decide (end_index ≤ insertion_idx lines) &&
          in_turn lines path chunks i (insertion_idx lines)
      else
        let old := sought lines chunk i
        let after :=
          if chunk.is_end_of_file && !old.isEmpty then
            decide (end_index + old.length ≤ lines.length)
          else
            seek_sequence lines old (max i end_index) false == seek_sequence lines old i false
        match seek_sequence lines old i chunk.is_end_of_file with
        | none => true
        | some start => after && in_turn lines path chunks (start + old.length) (start + old.length)

variable {lines : List Text} {path : Path}

/-- Lines that are found from the line index on are behind a place exactly when they are also
found from there. -/
theorem seek_after_iff {old : List Text} {i start : Nat}
    (h : seek_sequence lines old i false = some start) (end_index : Nat) :
    seek_sequence lines old (max i end_index) false = seek_sequence lines old i false ↔
      end_index ≤ start := by
  have hfrom (j k : Nat) (hk : seek_sequence lines old j false = some k) : j ≤ k := by
    by_cases hnil : old = []
    · rw [hnil, seek_sequence_nil] at hk
      exact Nat.le_of_eq (Option.some.inj hk)
    · exact (seek_sequence_range hnil hk).2
  rw [h]
  constructor
  · intro hlater
    exact Nat.le_trans (Nat.le_max_right _ _) (hfrom _ _ hlater)
  · intro hle
    exact (seek_sequence_resumable i _ (Nat.le_max_left _ _)).2 start h
      (Nat.max_le.mpr ⟨hfrom _ _ h, hle⟩)

/-- One turn of the loop. -/
theorem in_turn_cons {chunk : UpdateFileChunk} {chunks : List UpdateFileChunk}
    {line_index next : Nat} {r : Replacement}
    (h : replacement_of lines path chunk line_index = .ok (r, next)) (end_index : Nat) :
    in_turn lines path (chunk :: chunks) line_index end_index = true ↔
      end_index ≤ r.start_index ∧ in_turn lines path chunks next r.end_index = true := by
  obtain ⟨i, hcontext, -, hplace⟩ := replacement_of_cases h
  unfold Replacement.end_index at hplace ⊢
  rw [in_turn, hcontext]
  dsimp only
  rcases hplace with ⟨hnil, hstart, hlen, rfl⟩ | ⟨hold, hseek, hlen, rfl⟩
  · rw [hnil, List.isEmpty_nil, if_pos rfl, Bool.and_eq_true, decide_eq_true_iff, hstart, hlen]
    rfl
  · rw [if_neg (by simpa using hold), hseek, hlen]
    dsimp only
    rw [Bool.and_eq_true]
    refine and_congr ?_ Iff.rfl
    split
    · next heof =>
      rw [Bool.and_eq_true, Bool.not_eq_true', List.isEmpty_eq_false_iff] at heof
      have hrange := seek_sequence_range heof.2 hseek
      rw [if_pos heof.1] at hrange
      rw [decide_eq_true_iff]
      omega
    · next heof =>
      have hseek' : seek_sequence lines (sought lines chunk i) i false = some r.start_index := by
        rw [← hseek]
        by_cases hnil : sought lines chunk i = []
        · rw [hnil]
          rfl
        · have hfalse : chunk.is_end_of_file = false := by
            simpa [hnil] using heof
          rw [hfalse]
      rw [beq_iff_eq]
      exact seek_after_iff hseek' end_index

/-- A region goes before later ones when it ends where they may begin. -/
theorem pairwise_before_cons_iff {r : Replacement} {rs : List Replacement} {end_index : Nat} :
    ((r :: rs).Pairwise Replacement.Before ∧ ∀ q ∈ r :: rs, end_index ≤ q.start_index) ↔
      end_index ≤ r.start_index ∧
        (rs.Pairwise Replacement.Before ∧ ∀ q ∈ rs, r.end_index ≤ q.start_index) := by
  rw [List.pairwise_cons, List.forall_mem_cons]
  constructor
  · rintro ⟨⟨hbefore, hrest⟩, hstart, -⟩
    exact ⟨hstart, hrest, hbefore⟩
  · rintro ⟨hstart, hrest, hbefore⟩
    refine ⟨⟨hbefore, hrest⟩, hstart, ?_⟩
    intro q hq
    have hend := hbefore q hq
    unfold Replacement.end_index at hend
    omega

/-- By induction on the chunks: `end_index` is where the region before them ends. -/
theorem in_turn_iff {chunks : List UpdateFileChunk} {line_index : Nat} {rs : List Replacement}
    (h : replacements_from lines path chunks line_index = .ok rs) (end_index : Nat) :
    in_turn lines path chunks line_index end_index = true ↔
      rs.Pairwise Replacement.Before ∧ ∀ r ∈ rs, end_index ≤ r.start_index := by
  induction chunks generalizing line_index end_index rs with
  | nil =>
    cases h
    simp [in_turn]
  | cons chunk chunks ih =>
    obtain ⟨r, next, rest, hfirst, hrest, rfl⟩ := replacements_from_cons h
    rw [in_turn_cons hfirst, ih hrest, pairwise_before_cons_iff]

/-! ## The replacements of all chunks -/

/-- Sorting leaves regions that follow one another as they are. -/
theorem compute_replacements_of_before {chunks : List UpdateFileChunk} {rs : List Replacement}
    (h : replacements_from lines path chunks 0 = .ok rs)
    (hbefore : rs.Pairwise Replacement.Before) :
    compute_replacements lines path chunks = .ok rs := by
  have hsorted : rs.Pairwise fun a b => a.start_index ≤ b.start_index := by
    refine hbefore.imp ?_
    intro a b hab
    exact Nat.le_trans (Nat.le_add_right _ _) hab
  unfold compute_replacements
  rw [h]
  dsimp only [bind, Except.bind]
  rw [hsorted.insertionSort_eq]

/-- In the order of the chunks the regions end before the next ones begin, and the lines in the
end are the kept ones with the new lines of the chunks between them in that order. -/
def AppliedInTurn (lines : List Text) (path : Path) (chunks : List UpdateFileChunk) : Prop :=
  ∃ rs sorted out, replacements_from lines path chunks 0 = .ok rs ∧
    rs.Pairwise Replacement.Before ∧ List.Forall₂ Replacement.Carries rs chunks ∧
    compute_replacements lines path chunks = .ok sorted ∧
    apply_replacements lines sorted = some out ∧ Patched 0 lines rs out

/-- When the replacements are computed, they follow one another in the order of the chunks
exactly when each chunk is placed after the one before it. -/
theorem chunks_apply_in_turn_iff (lines : List Text) (path : Path) (chunks : List UpdateFileChunk)
    (sorted : List Replacement) (h : compute_replacements lines path chunks = .ok sorted) :
    AppliedInTurn lines path chunks ↔ in_turn lines path chunks 0 0 = true := by
  obtain ⟨rs, hrs, -⟩ := compute_replacements_eq_ok h
  constructor
  · rintro ⟨rs', sorted', out, hrs', hbefore, -⟩
    obtain rfl : rs = rs' := Except.ok.inj (hrs.symm.trans hrs')
    exact (in_turn_iff hrs 0).mpr ⟨hbefore, fun r _ => Nat.zero_le _⟩
  · intro hturn
    obtain ⟨hbefore, -⟩ := (in_turn_iff hrs 0).mp hturn
    obtain ⟨out, hout⟩ := exists_patched_all hbefore (replacements_from_range hrs (Nat.zero_le _))
    exact ⟨rs, rs, out, hrs, hbefore, replacements_from_carry hrs,
      compute_replacements_of_before hrs hbefore, hout.apply_all, hout⟩

/-- A line is replaced, and then a line is added. -/
theorem line_before_addition_is_in_turn :
    AppliedInTurn [['a'], ['b']] (Path.of_text ['f'])
      [⟨none, [['a']], [['A']], false⟩, ⟨none, [], [['c']], false⟩] :=
  (chunks_apply_in_turn_iff [['a'], ['b']] (Path.of_text ['f'])
    [⟨none, [['a']], [['A']], false⟩, ⟨none, [], [['c']], false⟩]
    [⟨0, 1, [['A']]⟩, ⟨2, 0, [['c']]⟩] (by decide)).mpr (by decide)

/-- The other way round the second region begins before the first one. -/
theorem addition_before_line_is_not_in_turn :
    ¬ ∀ (lines : List Text) (path : Path) (chunks : List UpdateFileChunk)
      (sorted : List Replacement), compute_replacements lines path chunks = .ok sorted →
        AppliedInTurn lines path chunks := by
  intro h
  obtain ⟨rs, sorted, out, hrs, hbefore, -⟩ := h [['a'], ['b']] (Path.of_text ['f'])
    [⟨none, [], [['c']], false⟩, ⟨none, [['a']], [['A']], false⟩]
    [⟨0, 1, [['A']]⟩, ⟨2, 0, [['c']]⟩] (by decide)
  have hturn := (in_turn_iff hrs 0).mpr ⟨hbefore, fun r _ => Nat.zero_le _⟩
  exact absurd hturn (by decide)

end Ecode.apply_patch
