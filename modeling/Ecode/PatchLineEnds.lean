-- The line ends of an updated file (apply-patch/src/lib.rs): the place of a line outside the
-- regions in the new contents, and when it has its own line end there.
import Ecode.PatchedText

namespace Ecode.apply_patch

/-! ## The regions before a line -/

/-- Sorting is stable: what was apart in the order of the list is so in the order of the keys,
where an earlier place means a smaller key or an earlier place in the list. -/
theorem pairwise_insertionSort_stable {α : Type} {key : α → Nat} {Q : α → α → Prop} {l : List α}
    (h : l.Pairwise Q) :
    (l.insertionSort fun a b => key a ≤ key b).Pairwise fun a b =>
      Q a b ∧ key a ≤ key b ∨ Q b a ∧ key a < key b := by
  induction l with
  | nil => exact .nil
  | cons a l ih =>
    rw [List.pairwise_cons] at h
    have hrest := ih h.2
    have hsorted : (l.insertionSort fun a b => key a ≤ key b).Pairwise fun a b => key a ≤ key b :=
      List.pairwise_insertionSort _ l
    have hfirst : ∀ b ∈ l.insertionSort fun a b => key a ≤ key b, Q a b := fun b hb =>
      h.1 b ((List.mem_insertionSort _).mp hb)
    rw [List.insertionSort_cons]
    generalize l.insertionSort (fun a b => key a ≤ key b) = s at hrest hsorted hfirst
    clear ih h
    induction s with
    | nil => exact .cons (by simp) .nil
    | cons b s ih =>
      rw [List.pairwise_cons] at hrest hsorted
      rw [List.forall_mem_cons] at hfirst
      rw [List.orderedInsert_cons]
      split
      · next hab =>
        refine .cons ?_ (.cons hrest.1 hrest.2)
        intro c hc
        rcases List.mem_cons.mp hc with rfl | hc
        · exact .inl ⟨hfirst.1, hab⟩
        · exact .inl ⟨hfirst.2 c hc, Nat.le_trans hab (hsorted.1 c hc)⟩
      · next hab =>
        refine .cons ?_ (ih hrest.2 hsorted.2 hfirst.2)
        intro c hc
        rcases (List.mem_orderedInsert _).mp hc with rfl | hc
        · exact .inr ⟨hfirst.1, by omega⟩
        · exact hrest.1 c hc

section before

variable {lines : List Text} {path : Path}

/-- A chunk goes on from the line index, or to the end of the file. -/
theorem replacement_of_start {chunk : UpdateFileChunk} {line_index next : Nat} {r : Replacement}
    (h : replacement_of lines path chunk line_index = .ok (r, next))
    (hindex : line_index ≤ lines.length) :
    (line_index ≤ r.start_index ∨ lines.length ≤ r.end_index ∨
      r.start_index = insertion_idx lines) ∧ line_index ≤ next := by
  obtain ⟨i, hcontext, -, hplace⟩ := replacement_of_cases h
  have hi := (seek_context_range hcontext).1
  rcases hplace with ⟨-, hstart, -, rfl⟩ | ⟨-, hseek, hlen, rfl⟩
  · exact ⟨.inr (.inr hstart), hi⟩
  · by_cases hnil : sought lines chunk i = []
    · rw [hnil, seek_sequence_nil] at hseek
      have hstart := Option.some.inj hseek
      unfold Replacement.end_index
      omega
    · have hrange := (seek_sequence_range hnil hseek).2
      unfold Replacement.end_index
      split at hrange <;> omega

theorem replacements_from_start {chunks : List UpdateFileChunk} {line_index : Nat}
    {rs : List Replacement} (h : replacements_from lines path chunks line_index = .ok rs)
    (hindex : line_index ≤ lines.length) :
    ∀ r ∈ rs, line_index ≤ r.start_index ∨ lines.length ≤ r.end_index ∨
      r.start_index = insertion_idx lines := by
  induction chunks generalizing line_index rs with
  | nil =>
    cases h
    simp
  | cons chunk chunks ih =>
    obtain ⟨r, next, rest, hfirst, hrest, rfl⟩ := replacements_from_cons h
    obtain ⟨hstart, hnext⟩ := replacement_of_start hfirst hindex
    intro q hq
    rcases List.mem_cons.mp hq with rfl | hq
    · exact hstart
    · have hq := ih hrest (replacement_of_range hfirst hindex).2 q hq
      omega

/-- Of two chunks whose regions end before a line, the later one is placed after the other, or
the earlier one adds lines at the end of the file. -/
theorem replacements_from_apart {chunks : List UpdateFileChunk} {line_index : Nat}
    {rs : List Replacement} (h : replacements_from lines path chunks line_index = .ok rs)
    (hindex : line_index ≤ lines.length) {i : Nat} (hi : i < lines.length) :
    rs.Pairwise fun a b => a.end_index ≤ i → b.end_index ≤ i →
      a.Before b ∨ a.old_len = 0 ∧ b.end_index ≤ a.start_index := by
  have hinsertion : i ≤ insertion_idx lines := by
    unfold insertion_idx
    split <;> omega
  induction chunks generalizing line_index rs with
  | nil =>
    cases h
    exact .nil
  | cons chunk chunks ih =>
    obtain ⟨r, next, rest, hfirst, hrest, rfl⟩ := replacements_from_cons h
    have hnext := (replacement_of_range hfirst hindex).2
    refine .cons ?_ (ih hrest hnext)
    intro q hq hr hqend
    obtain ⟨j, -, -, hplace⟩ := replacement_of_cases hfirst
    unfold Replacement.Before
    rcases hplace with ⟨-, hstart, hlen, -⟩ | ⟨-, -, -, rfl⟩
    · omega
    · have hstart := replacements_from_start hrest hnext q hq
      have hend : q.start_index ≤ q.end_index := Nat.le_add_right _ _
      omega

/-- The regions before a line follow one another. -/
theorem before_line_pairwise {chunks : List UpdateFileChunk} {sorted : List Replacement}
    (h : compute_replacements lines path chunks = .ok sorted) {i : Nat} (hi : i < lines.length)
    (hbefore : ∀ r ∈ sorted, r.start_index ≤ i → r.end_index ≤ i) :
    (sorted.filter (·.start_index ≤ i)).Pairwise Replacement.Before := by
  obtain ⟨rs, hrs, rfl⟩ := compute_replacements_eq_ok h
  have hapart := @pairwise_insertionSort_stable _ Replacement.start_index _ _
    (replacements_from_apart hrs (Nat.zero_le _) hi)
  rw [List.pairwise_filter]
  refine hapart.imp_of_mem ?_
  intro a b ha hb hab ha' hb'
  have haend := hbefore a ha (of_decide_eq_true ha')
  have hbend := hbefore b hb (of_decide_eq_true hb')
  unfold Replacement.Before Replacement.end_index at *
  rcases hab with ⟨hab, hle⟩ | ⟨hab, hlt⟩
  · have := hab haend hbend
    omega
  · have := hab hbend haend
    omega

theorem compute_replacements_sorted {chunks : List UpdateFileChunk} {sorted : List Replacement}
    (h : compute_replacements lines path chunks = .ok sorted) :
    sorted.Pairwise fun a b => a.start_index ≤ b.start_index := by
  obtain ⟨rs, -, rfl⟩ := compute_replacements_eq_ok h
  exact List.pairwise_insertionSort _ rs

end before

/-! ## A line that is kept -/

theorem filter_append_of_sorted {sorted : List Replacement}
    (h : sorted.Pairwise fun a b => a.start_index ≤ b.start_index) (i : Nat) :
    sorted.filter (·.start_index ≤ i) ++ sorted.filter (i < ·.start_index) = sorted := by
  induction sorted with
  | nil => rfl
  | cons r rs ih =>
    rw [List.pairwise_cons] at h
    by_cases hr : r.start_index ≤ i
    · rw [List.filter_cons_of_pos (by simpa using hr), List.filter_cons_of_neg (by simpa using hr),
        List.cons_append, ih h.2]
    · have hnone : rs.filter (·.start_index ≤ i) = [] := by
        rw [List.filter_eq_nil_iff]
        intro q hq
        have hle := h.1 q hq
        rw [decide_eq_true_iff]
        omega
      have hall : rs.filter (i < ·.start_index) = rs := by
        rw [List.filter_eq_self]
        intro q hq
        have hle := h.1 q hq
        rw [decide_eq_true_iff]
        omega
      rw [List.filter_cons_of_neg (by simpa using hr),
        List.filter_cons_of_pos (by simpa using hr), hnone, hall, List.nil_append]

theorem apply_replacements_append {lines out : List Text} {rs qs : List Replacement}
    (h : apply_replacements lines (rs ++ qs) = some out) :
    ∃ later, apply_replacements lines qs = some later := by
  induction rs generalizing out with
  | nil => exact ⟨out, h⟩
  | cons r rs ih =>
    rw [List.cons_append, apply_replacements] at h
    obtain ⟨ls, hls, -⟩ := Option.bind_eq_some_iff.mp h
    exact ih hls

/-- Replacements leave the lines before them. -/
theorem take_of_apply {lines out : List Text} {rs : List Replacement} {k : Nat}
    (h : apply_replacements lines rs = some out) (hk : k ≤ lines.length)
    (hrs : ∀ r ∈ rs, k ≤ r.start_index) : out.take k = lines.take k ∧ k ≤ out.length := by
  induction rs generalizing out with
  | nil =>
    cases h
    exact ⟨rfl, hk⟩
  | cons r rs ih =>
    rw [apply_replacements] at h
    obtain ⟨ls, hls, hinsert⟩ := Option.bind_eq_some_iff.mp h
    obtain ⟨htake, hlen⟩ := ih hls fun q hq => hrs q (List.mem_cons_of_mem r hq)
    have hr := hrs r List.mem_cons_self
    unfold insert_lines at hinsert
    split at hinsert
    · cases hinsert
      have hlength : k ≤ ((ls.take r.start_index ++ ls.drop (r.start_index + r.old_len)).take
          r.start_index).length := by
        simp only [List.length_take, List.length_append]
        omega
      rw [List.append_assoc, List.take_append_of_le_length hlength, List.take_take,
        Nat.min_eq_left hr, List.take_append_of_le_length (by rw [List.length_take]; omega),
        List.take_take, Nat.min_eq_left hr]
      refine ⟨htake, ?_⟩
      rw [List.length_append]
      omega
    · cases hinsert

theorem Patched.append {pos : Nat} {lines out : List Text} {rs : List Replacement}
    (h : Patched pos lines rs out) (ms : List Text) : Patched pos (lines ++ ms) rs (out ++ ms) := by
  induction h with
  | none pos lines => exact .none pos _
  | @region pos kept old rest out r rs hstart hlen _ ih =>
    rw [List.append_assoc (kept ++ old), List.append_assoc (kept ++ r.new_lines)]
    exact .region hstart hlen ih

/-- No chunk matches the line. -/
def Outside (rs : List Replacement) (i : Nat) : Prop :=
  ∀ r ∈ rs, r.start_index ≤ i → r.end_index ≤ i

/-- A line outside the regions is kept: before it are the lines before it with their regions
replaced, and behind it what the replacements behind it leave. -/
theorem outside_line_is_kept {lines out : List Text} {path : Path} {chunks : List UpdateFileChunk}
    {sorted : List Replacement} {i : Nat}
    (hsorted : compute_replacements lines path chunks = .ok sorted)
    (hout : apply_replacements lines sorted = some out) (hi : i < lines.length)
    (houtside : Outside sorted i) :
    ∃ before later, Patched 0 (lines.take i) (sorted.filter (·.start_index ≤ i)) before ∧
      apply_replacements lines (sorted.filter (i < ·.start_index)) = some later ∧
      i < later.length ∧ out = before ++ lines[i] :: later.drop (i + 1) := by
  have hsplit := filter_append_of_sorted (compute_replacements_sorted hsorted) i
  rw [← hsplit] at hout
  obtain ⟨later, hlater⟩ := apply_replacements_append hout
  have hlaterstart : ∀ r ∈ sorted.filter (i < ·.start_index), i + 1 ≤ r.start_index := by
    intro r hr
    exact of_decide_eq_true (List.mem_filter.mp hr).2
  obtain ⟨htake, hlen⟩ := take_of_apply hlater hi hlaterstart
  have hrange : ∀ r ∈ sorted.filter (·.start_index ≤ i), r.end_index ≤ (lines.take i).length := by
    intro r hr
    rw [List.length_take, Nat.min_eq_left (Nat.le_of_lt hi)]
    obtain ⟨hmem, hstart⟩ := List.mem_filter.mp hr
    exact houtside r hmem (of_decide_eq_true hstart)
  obtain ⟨before, hbefore⟩ :=
    exists_patched_all (before_line_pairwise hsorted hi houtside) hrange
  refine ⟨before, later, hbefore, hlater, hlen, ?_⟩
  have hget : later.drop i = lines[i] :: later.drop (i + 1) := by
    have hsame : later[i] = lines[i] := by
      have hget := congrArg (·[i]?) htake
      simpa [hlen, hi] using hget
    rw [← hsame, List.cons_getElem_drop_succ]
  have hlines : lines.take i ++ later.drop i = later := by
    have hle := congrArg (List.take i) htake
    rw [List.take_take, List.take_take, Nat.min_eq_left (Nat.le_succ i)] at hle
    rw [← hle, List.take_append_drop]
  have hpatched := hbefore.append (later.drop i)
  rw [hlines] at hpatched
  have happly := @Patched.apply lines later _ 0 _ _ hpatched (Nat.zero_le _) hlater
  rw [List.take_zero, List.nil_append, hget, hout] at happly
  exact Option.some.inj happly

/-! ## Lines and their ends -/

/-- How many lines of a text these lines make. -/
def line_count (ls : List Text) : Nat := (ls.map fun l => l.count '\n' + 1).sum

theorem line_count_append (ls ms : List Text) :
    line_count (ls ++ ms) = line_count ls + line_count ms := by
  simp [line_count]

theorem line_count_eq_length {ls : List Text} (h : ∀ l ∈ ls, '\n' ∉ l) :
    line_count ls = ls.length := by
  induction ls with
  | nil => rfl
  | cons l ls ih =>
    rw [List.forall_mem_cons] at h
    have hcons : line_count (l :: ls) = l.count '\n' + 1 + line_count ls := rfl
    rw [hcons, ih h.2, List.count_eq_zero.mpr h.1, List.length_cons]
    omega

/-- Where a line outside the regions is in the new contents. -/
def new_place (rs : List Replacement) (i : Nat) : Nat :=
  i + ((rs.filter (·.start_index ≤ i)).map fun r => line_count r.new_lines).sum -
    ((rs.filter (·.start_index ≤ i)).map (·.old_len)).sum

theorem Patched.line_count_eq {pos : Nat} {lines out : List Text} {rs : List Replacement}
    (h : Patched pos lines rs out) (hlines : ∀ l ∈ lines, '\n' ∉ l) :
    line_count out + (rs.map (·.old_len)).sum =
      lines.length + (rs.map fun r => line_count r.new_lines).sum := by
  induction h with
  | none pos lines => simp [line_count_eq_length hlines]
  | @region pos kept old rest out r rs _ hlen _ ih =>
    have hkept : ∀ l ∈ kept, '\n' ∉ l := fun l hl =>
      hlines l (List.mem_append_left _ (List.mem_append_left _ hl))
    have hrest := ih fun l hl => hlines l (List.mem_append_right _ hl)
    rw [line_count_append, line_count_append, line_count_eq_length hkept, List.map_cons,
      List.map_cons, List.sum_cons, List.sum_cons, List.length_append, List.length_append, hlen]
    omega

section text

variable {contents : Text}

theorem line_ending_cases (contents : Text) :
    ∃ j, line_ending_of contents = j ++ ['\n'] ∧ '\n' ∉ j := by
  unfold line_ending_of
  split
  · exact ⟨['\r'], rfl, by decide⟩
  · exact ⟨[], rfl, List.not_mem_nil⟩

theorem line_feed_of_suffix {contents piece : Text} (h : line_ending_of contents <:+ piece) :
    '\n' ∈ piece := by
  obtain ⟨j, hj, -⟩ := line_ending_cases contents
  apply h.subset
  rw [hj]
  exact List.mem_append_right j List.mem_cons_self

theorem split_inclusive_lines (ls : List Text) :
    Text.split_inclusive (ls.flatMap (· ++ line_ending_of contents)) =
      ls.flatMap fun l => Text.split_inclusive (l ++ line_ending_of contents) := by
  obtain ⟨j, hj, -⟩ := line_ending_cases contents
  rw [hj]
  induction ls with
  | nil => rfl
  | cons l ls ih =>
    rw [List.flatMap_cons, List.flatMap_cons, ← List.append_assoc l, Text.split_inclusive_append,
      ih]

theorem length_split_inclusive_lines (ls : List Text) :
    (Text.split_inclusive (ls.flatMap (· ++ line_ending_of contents))).length = line_count ls := by
  obtain ⟨j, hj, hj'⟩ := line_ending_cases contents
  rw [split_inclusive_lines, List.length_flatMap]
  unfold line_count
  congr 1
  apply List.map_congr_left
  intro l _
  rw [hj, ← List.append_assoc, Text.length_split_inclusive, List.count_append,
    List.count_eq_zero.mpr hj', Nat.add_zero]

/-- The line at a place of the new contents. -/
theorem line_at_place {before rest : List Text} {l : Text} (h : '\n' ∉ l) :
    (Text.split_inclusive ((before ++ l :: rest).flatMap (· ++ line_ending_of contents)))[
      line_count before]? = some (l ++ line_ending_of contents) := by
  obtain ⟨j, hj, hj'⟩ := line_ending_cases contents
  have hline : Text.split_inclusive (l ++ line_ending_of contents) =
      [l ++ line_ending_of contents] := by
    have hlj : '\n' ∉ l ++ j := by
      rw [List.mem_append, not_or]
      exact ⟨h, hj'⟩
    rw [hj, ← List.append_assoc]
    exact Text.split_inclusive_line hlj []
  have hbefore := @length_split_inclusive_lines contents before
  rw [split_inclusive_lines] at hbefore
  rw [split_inclusive_lines, List.flatMap_append, List.flatMap_cons, hline,
    List.getElem?_append_right (Nat.le_of_eq hbefore), hbefore, Nat.sub_self]
  rfl

/-- Every line of the new contents ends. -/
theorem line_feed_of_mem {ls : List Text} {piece : Text}
    (h : piece ∈ Text.split_inclusive (ls.flatMap (· ++ line_ending_of contents))) :
    '\n' ∈ piece := by
  obtain ⟨j, hj, -⟩ := line_ending_cases contents
  rw [split_inclusive_lines] at h
  obtain ⟨l, -, hl⟩ := List.mem_flatMap.mp h
  rw [hj, ← List.append_assoc] at hl
  exact Text.mem_split_inclusive hl

theorem normalize_line_ending_cases (p : Text) :
    p.getLast? ≠ some '\r' ∧ normalize_line_ending p = p ∨
      p = normalize_line_ending p ++ ['\r'] := by
  by_cases h : p.getLast? = some '\r'
  · obtain ⟨q, rfl⟩ := List.getLast?_eq_some_iff.mp h
    right
    unfold normalize_line_ending
    rw [Text.strip_suffix_append]
    rfl
  · exact .inl ⟨h, normalize_line_ending_eq_self h⟩

theorem not_mem_normalize_line_ending {p : Text} (h : '\n' ∉ p) :
    '\n' ∉ normalize_line_ending p := by
  rcases normalize_line_ending_cases p with ⟨-, hself⟩ | hstrip
  · rwa [hself]
  · intro hmem
    rw [hstrip] at h
    exact h (List.mem_append_left _ hmem)

section lines

variable {ps : List Text} {last : Text} (hps : ∀ p ∈ ps, '\n' ∉ p) (hlast : '\n' ∉ last)

include hps hlast

theorem original_lines_of_eq : original_lines_of (Text.terminated ps ++ last) =
    ps.map normalize_line_ending ++
      if normalize_line_ending last = [] then [] else [normalize_line_ending last] := by
  unfold original_lines_of
  rw [Text.split_terminated hps hlast, List.map_append, List.map_singleton]
  dsimp only
  rw [List.getLast?_concat, List.dropLast_concat]
  split
  · next hnil =>
    rw [if_pos (Option.some.inj hnil), List.append_nil]
  · next hne =>
    rw [if_neg fun heq => hne (congrArg some heq)]

theorem not_mem_original_lines :
    ∀ l ∈ original_lines_of (Text.terminated ps ++ last), '\n' ∉ l := by
  intro l hl
  rw [original_lines_of_eq hps hlast, List.mem_append] at hl
  rcases hl with hl | hl
  · obtain ⟨p, hp, rfl⟩ := List.mem_map.mp hl
    exact not_mem_normalize_line_ending (hps p hp)
  · split at hl
    · cases hl
    · rw [List.mem_singleton.mp hl]
      exact not_mem_normalize_line_ending hlast

/-- A line of the file with its end: one of the lines, or the last one, which has none. -/
theorem piece_cases {i : Nat} {piece : Text}
    (h : (Text.split_inclusive (Text.terminated ps ++ last))[i]? = some piece) :
    (∃ p, ps[i]? = some p ∧ piece = p ++ ['\n']) ∨ i = ps.length ∧ piece = last := by
  rw [Text.split_inclusive_terminated hps] at h
  rcases Nat.lt_or_ge i ps.length with hi | hi
  · left
    rw [List.getElem?_append_left (by rwa [List.length_map]), List.getElem?_map] at h
    obtain ⟨p, hp, rfl⟩ := Option.map_eq_some_iff.mp h
    exact ⟨p, hp, rfl⟩
  · right
    rw [List.getElem?_append_right (by rwa [List.length_map]), List.length_map] at h
    by_cases hnil : last = []
    · rw [hnil] at h
      cases h
    · rw [Text.split_inclusive_last hlast hnil, List.getElem?_singleton] at h
      split at h
      · next hzero =>
        cases h
        exact ⟨by omega, rfl⟩
      · cases h

/-- A line has the end that all lines get exactly when its own text ends so. -/
theorem own_end_iff {p : Text} (hp : p ∈ ps) :
    p ++ ['\n'] = normalize_line_ending p ++
        line_ending_of (Text.terminated ps ++ last) ↔
      line_ending_of (Text.terminated ps ++ last) <:+ p ++ ['\n'] := by
  unfold line_ending_of
  split
  · rcases normalize_line_ending_cases p with ⟨hno, hself⟩ | hstrip
    · rw [hself]
      refine iff_of_false ?_ ?_
      · intro heq
        have hlength := congrArg List.length heq
        simp at hlength
      · rintro ⟨q, hq⟩
        refine hno ?_
        have hinit : q ++ ['\r'] = p := List.append_cancel_right (by simpa using hq)
        rw [← hinit, List.getLast?_concat]
    · have hown : p ++ ['\n'] = normalize_line_ending p ++ "\r\n".toList := by
        have heq := congrArg (· ++ ['\n']) hstrip
        rwa [List.append_assoc] at heq
      exact iff_of_true hown ⟨normalize_line_ending p, hown.symm⟩
  · next hno =>
    rw [Text.contains_crlf_iff hps hlast] at hno
    have hself : normalize_line_ending p = p :=
      normalize_line_ending_eq_self fun hcr => hno ⟨p, hp, hcr⟩
    rw [hself]
    exact iff_of_true rfl (List.suffix_append p _)

/-- The line of the file that a piece was made of. -/
theorem line_of_piece {i : Nat} {piece : Text}
    (h : (Text.split_inclusive (Text.terminated ps ++ last))[i]? = some piece)
    (hi : i < (original_lines_of (Text.terminated ps ++ last)).length) :
    piece = (original_lines_of (Text.terminated ps ++ last))[i] ++
        line_ending_of (Text.terminated ps ++ last) ↔
      line_ending_of (Text.terminated ps ++ last) <:+ piece := by
  rcases piece_cases hps hlast h with ⟨p, hp, rfl⟩ | ⟨rfl, rfl⟩
  · have hget : (original_lines_of (Text.terminated ps ++ last))[i] = normalize_line_ending p := by
      obtain ⟨hip, -⟩ := List.getElem?_eq_some_iff.mp hp
      apply Option.some.inj
      rw [← List.getElem?_eq_getElem, original_lines_of_eq hps hlast,
        List.getElem?_append_left (by rwa [List.length_map]), List.getElem?_map, hp]
      rfl
    rw [hget]
    exact own_end_iff hps hlast (List.mem_of_getElem? hp)
  · -- a last line without an end
    refine iff_of_false ?_ ?_
    · intro heq
      apply hlast
      apply line_feed_of_suffix
      exact ⟨_, heq.symm⟩
    · intro hends
      exact hlast (line_feed_of_suffix hends)

end lines

end text

/-! ## Line ends that survive -/

/-- Every line outside the regions is in the new contents with its own end. -/
def KeepsLineEnds (contents : Text) (sorted : List Replacement) (new : Text) : Prop :=
  ∀ i piece, (Text.split_inclusive contents)[i]? = some piece → Outside sorted i →
    (Text.split_inclusive new)[new_place sorted i]? = some piece

/-- A line stays when a last blank line is dropped, unless it is this line. -/
theorem line_stays {before rest : List Text} {l : Text} (h : ¬ (l = [] ∧ rest = [])) :
    ∃ rest', (if (before ++ l :: rest).getLast? = some [] then (before ++ l :: rest).dropLast
      else before ++ l :: rest) = before ++ l :: rest' := by
  split
  · next hblank =>
    rcases rest with _ | ⟨m, rest⟩
    · rw [List.getLast?_concat] at hblank
      exact absurd ⟨Option.some.inj hblank, rfl⟩ h
    · refine ⟨(m :: rest).dropLast, ?_⟩
      rw [List.dropLast_append_of_ne_nil (List.cons_ne_nil _ _), List.dropLast_cons_cons]
  · exact ⟨rest, rfl⟩

/-- One line. The last of the lines that are left is lost when it is blank. -/
theorem line_end_survives_iff {path : Path} {chunks : List UpdateFileChunk} {contents new : Text}
    {sorted : List Replacement}
    (hsorted : compute_replacements (original_lines_of contents) path chunks = .ok sorted)
    (h : new_contents_of path chunks contents = .ok new) {i : Nat} {piece : Text}
    (hpiece : (Text.split_inclusive contents)[i]? = some piece) (houtside : Outside sorted i) :
    (Text.split_inclusive new)[new_place sorted i]? = some piece ↔
      line_ending_of contents <:+ piece ∧ (piece = line_ending_of contents →
        ∀ later, apply_replacements (original_lines_of contents)
          (sorted.filter (i < ·.start_index)) = some later → i + 1 < later.length) := by
  obtain ⟨ps, last, hcontents, hps, hlast⟩ := Text.exists_terminated contents
  obtain ⟨out, hout, rfl⟩ := new_contents_of_eq hsorted h
  rcases Nat.lt_or_ge i (original_lines_of contents).length with hi | hi
  · obtain ⟨before, later, hbefore, hlater, hlen, rfl⟩ :=
      outside_line_is_kept hsorted hout hi houtside
    have hlines : ∀ l ∈ original_lines_of contents, '\n' ∉ l := by
      rw [hcontents]
      exact not_mem_original_lines hps hlast
    have hown : piece = (original_lines_of contents)[i] ++ line_ending_of contents ↔
        line_ending_of contents <:+ piece := by
      subst hcontents
      exact line_of_piece hps hlast hpiece hi
    have hplace : new_place sorted i = line_count before := by
      have hcount := hbefore.line_count_eq fun l hl => hlines l (List.mem_of_mem_take hl)
      rw [List.length_take, Nat.min_eq_left (Nat.le_of_lt hi)] at hcount
      unfold new_place
      omega
    have hsecond : (∀ later', apply_replacements (original_lines_of contents)
        (sorted.filter (i < ·.start_index)) = some later' → i + 1 < later'.length) ↔
          later.drop (i + 1) ≠ [] := by
      rw [ne_eq, List.drop_eq_nil_iff, Nat.not_le]
      constructor
      · intro hall
        exact hall later hlater
      · intro hlt later' hlater'
        rwa [Option.some.inj (hlater'.symm.trans hlater)]
    rw [hplace, hsecond, ← hown]
    by_cases hlost : (original_lines_of contents)[i] = [] ∧ later.drop (i + 1) = []
    · rw [hlost.1, hlost.2, if_pos (by simp), List.dropLast_concat,
        List.getElem?_eq_none (Nat.le_of_eq (length_split_inclusive_lines before))]
      refine iff_of_false (by simp) ?_
      rintro ⟨hpiece', hkept⟩
      exact hkept hpiece' rfl
    · obtain ⟨rest, hrest⟩ := line_stays hlost
      rw [hrest, line_at_place (hlines _ (List.getElem_mem hi)), Option.some.injEq]
      constructor
      · rintro rfl
        refine ⟨rfl, ?_⟩
        intro hblank hnil
        exact hlost ⟨by simpa using hblank, hnil⟩
      · rintro ⟨heq, -⟩
        exact heq.symm
  · -- a last carriage return without a line feed is no line at all
    subst hcontents
    rcases piece_cases hps hlast hpiece with ⟨p, hp, -⟩ | ⟨-, rfl⟩
    · obtain ⟨hip, -⟩ := List.getElem?_eq_some_iff.mp hp
      rw [original_lines_of_eq hps hlast, List.length_append, List.length_map] at hi
      omega
    · refine iff_of_false ?_ ?_
      · intro hsome
        exact hlast (line_feed_of_mem (List.mem_of_getElem? hsome))
      · rintro ⟨hends, -⟩
        exact hlast (line_feed_of_suffix hends)

/-- When the new contents are derived, every line outside the regions keeps its own end exactly
when this is the end that the file is given, and no blank line outside the regions is the last
one that is left. -/
theorem line_ends_survive_iff (path : Path) (chunks : List UpdateFileChunk) (contents new : Text)
    (sorted : List Replacement)
    (hsorted : compute_replacements (original_lines_of contents) path chunks = .ok sorted)
    (h : new_contents_of path chunks contents = .ok new) :
    KeepsLineEnds contents sorted new ↔
      ∀ i piece, (Text.split_inclusive contents)[i]? = some piece → Outside sorted i →
        line_ending_of contents <:+ piece ∧ (piece = line_ending_of contents →
          ∀ later, apply_replacements (original_lines_of contents)
            (sorted.filter (i < ·.start_index)) = some later → i + 1 < later.length) := by
  unfold KeepsLineEnds
  constructor
  · intro hkeeps i piece hpiece houtside
    exact (line_end_survives_iff hsorted h hpiece houtside).mp (hkeeps i piece hpiece houtside)
  · intro hends i piece hpiece houtside
    exact (line_end_survives_iff hsorted h hpiece houtside).mpr (hends i piece hpiece houtside)

/-- Of two lines that end alike one is replaced. -/
theorem like_line_end_survives :
    KeepsLineEnds "a\r\nb\r\n".toList [⟨0, 1, [['A']]⟩] "A\r\nb\r\n".toList := by
  refine (line_ends_survive_iff (Path.of_text ['f']) [⟨none, [['a']], [['A']], false⟩]
    "a\r\nb\r\n".toList "A\r\nb\r\n".toList [⟨0, 1, [['A']]⟩] (by decide) (by decide)).mpr ?_
  intro i piece hpiece houtside
  have hpieces : Text.split_inclusive "a\r\nb\r\n".toList =
      ["a\r\n".toList, "b\r\n".toList] := by decide
  rw [hpieces] at hpiece
  rcases i with _ | _ | i
  · exact absurd (houtside ⟨0, 1, [['A']]⟩ List.mem_cons_self (Nat.le_refl 0)) (by decide)
  · obtain rfl := Option.some.inj hpiece
    exact ⟨by decide, fun heq => absurd heq (by decide)⟩
  · cases hpiece

/-- A line that ends in another way than the first one does not keep its end. -/
theorem other_line_end_is_changed :
    ¬ ∀ (path : Path) (chunks : List UpdateFileChunk) (contents new : Text)
      (sorted : List Replacement),
      compute_replacements (original_lines_of contents) path chunks = .ok sorted →
      new_contents_of path chunks contents = .ok new → KeepsLineEnds contents sorted new := by
  intro h
  have hkept := h (Path.of_text ['f']) [⟨none, [['a']], [['A']], false⟩]
    "a\r\nb\n".toList "A\r\nb\r\n".toList [⟨0, 1, [['A']]⟩] (by decide) (by decide)
    1 "b\n".toList (by decide) (by simp [Outside, Replacement.end_index])
  exact absurd hkept (by decide)

end Ecode.apply_patch
