-- The regions that the chunks of a patch replace (apply-patch/src/lib.rs and seek_sequence.rs):
-- where the search finds them, when they follow one another in the order of the chunks, and
-- what the lines are after all replacements.
import Ecode.PatchChunks

namespace Ecode.apply_patch

/-! ## Where a search can end -/

section seek

variable {lines pattern : List Text}

/-- What one pass finds lies in its range. -/
theorem seek_pass_range {f : Text → Text} {start i : Nat}
    (h : seek_pass f lines pattern start = some i) :
    start ≤ i ∧ i ≤ lines.length - pattern.length := by
  have hmem := List.mem_of_find?_eq_some h
  rw [List.mem_range'_1] at hmem
  omega

/-- A search that begins later finds the same, unless it begins behind it. -/
def Resumable (seek : Nat → Option Nat) : Prop :=
  ∀ start later, start ≤ later → (seek start = none → seek later = none) ∧
    ∀ i, seek start = some i → later ≤ i → seek later = some i

theorem seek_pass_resumable (f : Text → Text) : Resumable (seek_pass f lines pattern) := by
  intro start later hle
  -- the range from `start` on is what is skipped and the range from `later` on
  have hsplit : seek_pass f lines pattern start =
      ((List.range' start (min (later - start) (lines.length - pattern.length + 1 - start))).find?
        fun i => ((lines.drop i).take pattern.length).map f == pattern.map f).or
        (seek_pass f lines pattern later) := by
    unfold seek_pass
    rw [← List.find?_append]
    congr 1
    rcases Nat.le_total (later - start) (lines.length - pattern.length + 1 - start) with hin | hout
    · rw [Nat.min_eq_left hin]
      have happend := @List.range'_append_1 start (later - start)
        (lines.length - pattern.length + 1 - later)
      rw [show start + (later - start) = later by omega,
        show later - start + (lines.length - pattern.length + 1 - later) =
          lines.length - pattern.length + 1 - start by omega] at happend
      exact happend.symm
    · rw [Nat.min_eq_right hout,
        show lines.length - pattern.length + 1 - later = 0 by omega]
      simp
  rw [hsplit]
  constructor
  · intro hnone
    exact (Option.or_eq_none_iff.mp hnone).2
  · intro i hsome hlater
    rcases Option.or_eq_some_iff.mp hsome with hfirst | ⟨-, hrest⟩
    · have hmem := List.mem_of_find?_eq_some hfirst
      rw [List.mem_range'_1] at hmem
      omega
    · exact hrest

theorem Resumable.orElse {f g : Nat → Option Nat} (hf : Resumable f) (hg : Resumable g) :
    Resumable fun start => f start <|> g start := by
  intro start later hle
  dsimp only
  cases hstart : f start with
  | none =>
    rw [(hf start later hle).1 hstart]
    exact hg start later hle
  | some j =>
    refine ⟨fun h => by simp at h, ?_⟩
    intro i hi hlater
    obtain rfl : j = i := by simpa using hi
    rw [(hf start later hle).2 j hstart hlater]
    rfl

theorem seek_sequence_resumable :
    Resumable fun start => seek_sequence lines pattern start false := by
  unfold seek_sequence
  split
  · intro start later hle
    refine ⟨fun h => by simp at h, ?_⟩
    intro i hi hlater
    obtain rfl : start = i := by simpa using hi
    rw [Nat.le_antisymm hle hlater]
  · split
    · intro start later hle
      exact ⟨fun _ => rfl, fun i hi => by simp at hi⟩
    · exact (seek_pass_resumable id).orElse ((seek_pass_resumable Text.trim_end).orElse
        ((seek_pass_resumable Text.trim).orElse (seek_pass_resumable normalise)))

/-- Where the lines of a pattern end, and where they begin at the earliest. -/
theorem seek_sequence_range {start i : Nat} {eof : Bool} (hne : pattern ≠ [])
    (h : seek_sequence lines pattern start eof = some i) :
    i + pattern.length ≤ lines.length ∧
      (if eof then lines.length - pattern.length else start) ≤ i := by
  unfold seek_sequence at h
  rw [if_neg (by simpa using hne)] at h
  split at h
  · cases h
  · simp only [Option.orElse_eq_orElse, Option.orElse_eq_or, Option.or_eq_some_iff] at h
    rcases h with h | ⟨-, h | ⟨-, h | ⟨-, h⟩⟩⟩
    all_goals
      have hrange := seek_pass_range h
      omega

theorem seek_sequence_nil (start : Nat) (eof : Bool) :
    seek_sequence lines [] start eof = some start := rfl

end seek

/-! ## The place of a chunk -/

/-- Where a chunk without old lines is put: at the end, or before a last empty line. -/
def insertion_idx (lines : List Text) : Nat :=
  if lines.getLast? = some [] then lines.length - 1 else lines.length

theorem insertion_idx_le (lines : List Text) : insertion_idx lines ≤ lines.length := by
  unfold insertion_idx
  split <;> omega

def Replacement.end_index (r : Replacement) : Nat := r.start_index + r.old_len

/-- The old lines of a chunk are looked for once more without their last empty one. -/
def retried (lines : List Text) (chunk : UpdateFileChunk) (line_index : Nat) : Prop :=
  seek_sequence lines (chunk.old_lines.map normalize_line_ending) line_index
      chunk.is_end_of_file = none ∧
    (chunk.old_lines.map normalize_line_ending).getLast? = some []

instance (lines : List Text) (chunk : UpdateFileChunk) (line_index : Nat) :
    Decidable (retried lines chunk line_index) := inferInstanceAs (Decidable (_ ∧ _))

/-- The old lines that decide the place of a chunk. -/
def sought (lines : List Text) (chunk : UpdateFileChunk) (line_index : Nat) : List Text :=
  if retried lines chunk line_index then (chunk.old_lines.map normalize_line_ending).dropLast
  else chunk.old_lines.map normalize_line_ending

theorem sought_of_found {lines : List Text} {chunk : UpdateFileChunk} {i start : Nat}
    (h : seek_sequence lines (chunk.old_lines.map normalize_line_ending) i chunk.is_end_of_file =
      some start) : sought lines chunk i = chunk.old_lines.map normalize_line_ending := by
  have hfirst : ¬ retried lines chunk i := fun hretried => by
    rw [hretried.1] at h
    cases h
  unfold sought
  rw [if_neg hfirst]

theorem sought_of_retried {lines : List Text} {chunk : UpdateFileChunk} {i : Nat}
    (h : retried lines chunk i) :
    sought lines chunk i = (chunk.old_lines.map normalize_line_ending).dropLast := if_pos h

/-- The lines that come in the place of the old ones are the new lines of the chunk, without a
last empty one where that stands for the final newline. -/
def Replacement.Carries (r : Replacement) (chunk : UpdateFileChunk) : Prop :=
  r.new_lines = chunk.new_lines.map normalize_line_ending ∨
    r.new_lines ++ [[]] = chunk.new_lines.map normalize_line_ending

theorem dropLast_append_empty {ls : List Text} (h : ls.getLast? = some []) :
    ls.dropLast ++ [[]] = ls := by
  obtain ⟨ps, rfl⟩ := List.getLast?_eq_some_iff.mp h
  rw [List.dropLast_concat]

/-- All that one turn of the loop does. -/
theorem replacement_of_cases {lines : List Text} {path : Path} {chunk : UpdateFileChunk}
    {line_index next : Nat} {r : Replacement}
    (h : replacement_of lines path chunk line_index = .ok (r, next)) :
    ∃ i, seek_context lines path chunk line_index = .ok i ∧ r.Carries chunk ∧
      (chunk.old_lines = [] ∧ r.start_index = insertion_idx lines ∧ r.old_len = 0 ∧ next = i ∨
        chunk.old_lines ≠ [] ∧
          seek_sequence lines (sought lines chunk i) i chunk.is_end_of_file =
            some r.start_index ∧
          r.old_len = (sought lines chunk i).length ∧ next = r.end_index) := by
  unfold replacement_of at h
  cases hcontext : seek_context lines path chunk line_index with
  | error e =>
    rw [hcontext] at h
    cases h
  | ok i =>
    rw [hcontext] at h
    dsimp only [bind, Except.bind] at h
    refine ⟨i, rfl, ?_⟩
    by_cases hold : chunk.old_lines = []
    · rw [hold, List.isEmpty_nil, if_pos rfl] at h
      cases h
      exact ⟨.inl rfl, .inl ⟨hold, rfl, rfl, rfl⟩⟩
    · rw [if_neg (by simpa using hold)] at h
      cases hfull : seek_sequence lines (chunk.old_lines.map normalize_line_ending) i
          chunk.is_end_of_file with
      | some start =>
        rw [hfull] at h
        cases h
        rw [sought_of_found hfull]
        exact ⟨.inl rfl, .inr ⟨hold, hfull, rfl, rfl⟩⟩
      | none =>
        rw [hfull] at h
        dsimp only at h
        by_cases hempty : (chunk.old_lines.map normalize_line_ending).getLast? = some []
        · rw [if_pos hempty] at h
          dsimp only at h
          cases hrest : seek_sequence lines (chunk.old_lines.map normalize_line_ending).dropLast i
              chunk.is_end_of_file with
          | none =>
            rw [hrest] at h
            cases h
          | some start =>
            rw [hrest] at h
            cases h
            rw [sought_of_retried ⟨hfull, hempty⟩]
            refine ⟨?_, .inr ⟨hold, hrest, rfl, rfl⟩⟩
            unfold Replacement.Carries
            dsimp only
            split
            · next hnew => exact .inr (dropLast_append_empty hnew)
            · exact .inl rfl
        · rw [if_neg hempty] at h
          cases h

theorem seek_context_range {lines : List Text} {path : Path} {chunk : UpdateFileChunk} {i j : Nat}
    (h : seek_context lines path chunk i = .ok j) :
    i ≤ j ∧ (i ≤ lines.length → j ≤ lines.length) := by
  unfold seek_context at h
  split at h
  · cases h
    exact ⟨Nat.le_refl _, id⟩
  · split at h
    · next idx hseek =>
      cases h
      have hrange := seek_sequence_range (List.cons_ne_nil _ _) hseek
      rw [if_neg (by simp), List.length_singleton] at hrange
      omega
    · cases h

/-- The region of a chunk lies in the file. -/
theorem replacement_of_range {lines : List Text} {path : Path} {chunk : UpdateFileChunk}
    {line_index next : Nat} {r : Replacement}
    (h : replacement_of lines path chunk line_index = .ok (r, next))
    (hindex : line_index ≤ lines.length) : r.end_index ≤ lines.length ∧ next ≤ lines.length := by
  obtain ⟨i, hcontext, -, hplace⟩ := replacement_of_cases h
  have hi := (seek_context_range hcontext).2 hindex
  unfold Replacement.end_index
  rcases hplace with ⟨-, hstart, hlen, rfl⟩ | ⟨-, hseek, hlen, rfl⟩
  · have hle := insertion_idx_le lines
    omega
  · have hend : r.end_index ≤ lines.length := by
      unfold Replacement.end_index
      by_cases hnil : sought lines chunk i = []
      · rw [hnil, seek_sequence_nil] at hseek
        rw [hnil] at hlen
        rw [hlen, ← Option.some.inj hseek]
        exact hi
      · have hrange := (seek_sequence_range hnil hseek).1
        omega
    exact ⟨hend, hend⟩

theorem replacements_from_cons {lines : List Text} {path : Path} {chunk : UpdateFileChunk}
    {chunks : List UpdateFileChunk} {line_index : Nat} {rs : List Replacement}
    (h : replacements_from lines path (chunk :: chunks) line_index = .ok rs) :
    ∃ r next rest, replacement_of lines path chunk line_index = .ok (r, next) ∧
      replacements_from lines path chunks next = .ok rest ∧ rs = r :: rest := by
  unfold replacements_from at h
  cases hfirst : replacement_of lines path chunk line_index with
  | error e =>
    rw [hfirst] at h
    cases h
  | ok p =>
    obtain ⟨r, next⟩ := p
    rw [hfirst] at h
    dsimp only [bind, Except.bind] at h
    cases hrest : replacements_from lines path chunks next with
    | error e =>
      rw [hrest] at h
      cases h
    | ok rest =>
      rw [hrest] at h
      cases h
      exact ⟨r, next, rest, rfl, hrest, rfl⟩

theorem replacements_from_range {lines : List Text} {path : Path} {chunks : List UpdateFileChunk}
    {line_index : Nat} {rs : List Replacement}
    (h : replacements_from lines path chunks line_index = .ok rs)
    (hindex : line_index ≤ lines.length) : ∀ r ∈ rs, r.end_index ≤ lines.length := by
  induction chunks generalizing line_index rs with
  | nil =>
    cases h
    simp
  | cons chunk chunks ih =>
    obtain ⟨r, next, rest, hfirst, hrest, rfl⟩ := replacements_from_cons h
    have hrange := replacement_of_range hfirst hindex
    intro q hq
    rcases List.mem_cons.mp hq with rfl | hq
    · exact hrange.1
    · exact ih hrest hrange.2 q hq

theorem replacements_from_carry {lines : List Text} {path : Path} {chunks : List UpdateFileChunk}
    {line_index : Nat} {rs : List Replacement}
    (h : replacements_from lines path chunks line_index = .ok rs) :
    List.Forall₂ Replacement.Carries rs chunks := by
  induction chunks generalizing line_index rs with
  | nil =>
    cases h
    exact .nil
  | cons chunk chunks ih =>
    obtain ⟨r, next, rest, hfirst, hrest, rfl⟩ := replacements_from_cons h
    obtain ⟨i, -, hcarries, -⟩ := replacement_of_cases hfirst
    exact .cons hcarries (ih hrest)

theorem compute_replacements_eq_ok {lines : List Text} {path : Path}
    {chunks : List UpdateFileChunk} {sorted : List Replacement}
    (h : compute_replacements lines path chunks = .ok sorted) :
    ∃ rs, replacements_from lines path chunks 0 = .ok rs ∧
      sorted = rs.insertionSort fun a b => a.start_index ≤ b.start_index := by
  unfold compute_replacements at h
  cases hrs : replacements_from lines path chunks 0 with
  | error e =>
    rw [hrs] at h
    cases h
  | ok rs =>
    rw [hrs] at h
    cases h
    exact ⟨rs, rfl, rfl⟩

theorem compute_replacements_range {lines : List Text} {path : Path}
    {chunks : List UpdateFileChunk} {sorted : List Replacement}
    (h : compute_replacements lines path chunks = .ok sorted) :
    ∀ r ∈ sorted, r.end_index ≤ lines.length := by
  obtain ⟨rs, hrs, rfl⟩ := compute_replacements_eq_ok h
  intro r hr
  rw [List.mem_insertionSort] at hr
  exact replacements_from_range hrs (Nat.zero_le _) r hr

/-! ## Regions that follow one another -/

/-- A region ends before the other begins. -/
def Replacement.Before (r q : Replacement) : Prop := r.end_index ≤ q.start_index

/-- The lines of a file from `pos` on, with the regions replaced one after another: between them
the lines are kept. -/
inductive Patched : Nat → List Text → List Replacement → List Text → Prop
  | none (pos : Nat) (lines : List Text) : Patched pos lines [] lines
  | region {pos : Nat} {kept old rest out : List Text} {r : Replacement} {rs : List Replacement} :
      r.start_index = pos + kept.length → r.old_len = old.length →
        Patched r.end_index rest rs out →
          Patched pos (kept ++ old ++ rest) (r :: rs) (kept ++ r.new_lines ++ out)

theorem Patched.le_start {pos : Nat} {lines out : List Text} {rs : List Replacement}
    (h : Patched pos lines rs out) : ∀ r ∈ rs, pos ≤ r.start_index := by
  induction h with
  | none pos lines => simp
  | @region pos kept old rest out r rs hstart hlen _ ih =>
    intro q hq
    rcases List.mem_cons.mp hq with rfl | hq
    · omega
    · have hq := ih q hq
      unfold Replacement.end_index at hq
      omega

/-- What can be patched has its regions apart and in order. -/
theorem Patched.pairwise {pos : Nat} {lines out : List Text} {rs : List Replacement}
    (h : Patched pos lines rs out) : rs.Pairwise Replacement.Before := by
  induction h with
  | none pos lines => exact .nil
  | region _ _ hrest ih => exact .cons hrest.le_start ih

theorem exists_patched {rs : List Replacement} (h : rs.Pairwise Replacement.Before) {pos : Nat}
    {lines : List Text}
    (hrange : ∀ r ∈ rs, pos ≤ r.start_index ∧ r.end_index ≤ pos + lines.length) :
    ∃ out, Patched pos lines rs out := by
  induction rs generalizing pos lines with
  | nil => exact ⟨lines, .none pos lines⟩
  | cons r rs ih =>
    rw [List.pairwise_cons] at h
    obtain ⟨hstart, hend⟩ := hrange r List.mem_cons_self
    have hend' : r.start_index + r.old_len ≤ pos + lines.length := hend
    have hlater : ∀ q ∈ rs, r.end_index ≤ q.start_index ∧
        q.end_index ≤ r.end_index + (lines.drop (r.end_index - pos)).length := by
      intro q hq
      have hqend := (hrange q (List.mem_cons_of_mem r hq)).2
      rw [List.length_drop]
      refine ⟨h.1 q hq, ?_⟩
      have hle : pos ≤ r.end_index := Nat.le_trans hstart (Nat.le_add_right _ _)
      omega
    obtain ⟨out, hout⟩ := ih h.2 hlater
    have hsplit : lines = lines.take (r.start_index - pos) ++
        (lines.drop (r.start_index - pos)).take r.old_len ++ lines.drop (r.end_index - pos) := by
      have hdrop : lines.drop (r.end_index - pos) =
          (lines.drop (r.start_index - pos)).drop r.old_len := by
        rw [List.drop_drop]
        congr 1
        unfold Replacement.end_index
        omega
      rw [hdrop, List.append_assoc, List.take_append_drop, List.take_append_drop]
    refine ⟨lines.take (r.start_index - pos) ++ r.new_lines ++ out, ?_⟩
    have hpatched := @Patched.region pos (lines.take (r.start_index - pos))
      ((lines.drop (r.start_index - pos)).take r.old_len) (lines.drop (r.end_index - pos)) out r rs
      (by rw [List.length_take]; omega) (by rw [List.length_take, List.length_drop]; omega) hout
    rwa [← hsplit] at hpatched

/-- Regions of the file that follow one another can be patched. -/
theorem exists_patched_all {lines : List Text} {rs : List Replacement}
    (h : rs.Pairwise Replacement.Before) (hrange : ∀ r ∈ rs, r.end_index ≤ lines.length) :
    ∃ out, Patched 0 lines rs out := by
  apply exists_patched h
  intro r hr
  rw [Nat.zero_add]
  exact ⟨Nat.zero_le _, hrange r hr⟩

theorem insert_lines_append (ls segment ms : List Text) :
    insert_lines (ls ++ ms) ls.length segment = some (ls ++ segment ++ ms) := by
  unfold insert_lines
  rw [if_pos (.inr (by simp)), List.take_left, List.drop_left]

/-- From the last region to the first, the replacements patch what the ones after them leave. -/
theorem Patched.apply {lines later out : List Text} {pos : Nat} {rs qs : List Replacement}
    (h : Patched pos (later.drop pos) rs out) (hpos : pos ≤ later.length)
    (hlater : apply_replacements lines qs = some later) :
    apply_replacements lines (rs ++ qs) = some (later.take pos ++ out) := by
  generalize hrest : later.drop pos = rest at h
  induction h with
  | none pos rest => rw [← hrest, List.nil_append, List.take_append_drop, hlater]
  | @region pos kept old rest out r rs hstart hlen _ ih =>
    have hlength := congrArg List.length hrest
    simp only [List.length_drop, List.length_append] at hlength
    have hend : r.end_index = pos + (kept.length + old.length) := by
      unfold Replacement.end_index
      omega
    have hkept : later.take r.start_index = later.take pos ++ kept := by
      rw [hstart, List.take_add, hrest, List.append_assoc, List.take_left]
    have hdrop : later.drop r.end_index = rest := by
      rw [hend, ← List.drop_drop, hrest, ← List.length_append, List.drop_left]
    have hlen_end : (later.take r.end_index).length = r.end_index := by
      rw [List.length_take]
      omega
    have hstart_len : (later.take pos ++ kept).length = r.start_index := by
      rw [List.length_append, List.length_take]
      omega
    have hinserted := insert_lines_append (later.take pos ++ kept) r.new_lines out
    rw [hstart_len] at hinserted
    rw [List.cons_append, apply_replacements, ih (by omega) hdrop]
    dsimp only [Option.bind_eq_bind, Option.bind_some]
    have htake : (later.take r.end_index ++ out).take r.start_index = later.take pos ++ kept := by
      rw [List.take_append_of_le_length (by omega), List.take_take, Nat.min_eq_left (by omega),
        hkept]
    have hafter : (later.take r.end_index ++ out).drop (r.start_index + r.old_len) = out := by
      rw [show r.start_index + r.old_len = (later.take r.end_index).length from hlen_end.symm,
        List.drop_left]
    rw [htake, hafter, hinserted, List.append_assoc, List.append_assoc, List.append_assoc]

/-- Lines whose regions follow one another are patched by the replacements. -/
theorem Patched.apply_all {lines out : List Text} {rs : List Replacement}
    (h : Patched 0 lines rs out) : apply_replacements lines rs = some out := by
  have happly := @Patched.apply lines lines out 0 rs [] h (Nat.zero_le _) rfl
  rwa [List.append_nil, List.take_zero, List.nil_append] at happly

end Ecode.apply_patch
