-- The subsequence matcher of the file and command pickers (common/src/fuzzy_match.rs), against
-- subsequences of the lower case.
import Ecode.Text

namespace Ecode.fuzzy

/-! ## Lower case -/

section lowercase

-- `char::to_lowercase` and the properties `Cased` and `Case_Ignorable` of the Unicode tables.
variable (to_lowercase : Char → List Char) (cased case_ignorable : Char → Bool)

def case_ignorable_then_cased (t : Text) : Bool :=
  match (t.dropWhile case_ignorable).head? with
  | some c => cased c
  | none => false

/-- A capital sigma between the two texts ends a word. -/
def is_word_final (before after : Text) : Bool :=
  case_ignorable_then_cased cased case_ignorable before.reverse &&
    !case_ignorable_then_cased cased case_ignorable after

/-- `str::to_lowercase` of what comes behind a text. -/
def lowercase_from (before : Text) : Text → Text
  | [] => []
  | c :: rest =>
    (if c = 'Σ' then [if is_word_final cased case_ignorable before rest then 'ς' else 'σ']
      else to_lowercase c) ++ lowercase_from (before ++ [c]) rest

def str_to_lowercase (t : Text) : Text := lowercase_from to_lowercase cased case_ignorable [] t

/-- The lower case taken character by character. -/
def chars_to_lowercase (t : Text) : Text := t.flatMap to_lowercase

/-- Some capital sigma ends a word. -/
def HasFinalSigma (t : Text) : Prop :=
  ∃ before after, t = before ++ 'Σ' :: after ∧
    is_word_final cased case_ignorable before after = true

end lowercase

/-! ## The matcher -/

section matcher

variable (to_lowercase : Char → List Char) (cased case_ignorable : Char → Bool)

/-- `lowered_chars` with `lowered_to_orig_char_idx`: the lower case of each character with the
index of that character. -/
def lowered (haystack : Text) : List (Char × Nat) :=
  haystack.zipIdx.flatMap fun p => (to_lowercase p.1).map fun lc => (lc, p.2)

/-- The two loops over the needle and the lowered haystack from `cur` on: the position and the
original index of each hit. -/
def hits : List (Char × Nat) → Nat → List Char → Option (List (Nat × Nat))
  | _, _, [] => some []
  | [], _, _ :: _ => none
  | (c, orig) :: rest, cur, nc :: needle =>
    if c = nc then (hits rest (cur + 1) needle).map ((cur, orig) :: ·)
    else hits rest (cur + 1) (nc :: needle)

/-- `sort_unstable` and `dedup`. -/
def sort_dedup (indices : List Nat) : List Nat :=
  (indices.insertionSort (· ≤ ·)).destutter (· ≠ ·)

/-- Arithmetic of `i32`, which wraps. -/
def i32 (n : Int) : Int := n.bmod (2 ^ 32)

def score (haystack : List (Char × Nat)) (found : List (Nat × Nat)) (needle_len : Nat) : Int :=
  let first_lower_pos :=
    match found.head? with
    | none => 0
    | some hit => (haystack.findIdx? fun p => p.2 = hit.2).getD 0
  let last_lower_pos := (found.getLast?.map Prod.fst).getD first_lower_pos
  let window := i32 (i32 (i32 (i32 last_lower_pos - i32 first_lower_pos) + 1) - i32 needle_len)
  let score := max window 0
  if first_lower_pos = 0 then score - 100 else score

def I32_MAX : Int := 2147483647

def fuzzy_match (haystack needle : Text) : Option (List Nat × Int) :=
  if needle = [] then some ([], I32_MAX)
  else
    let lowered_needle := str_to_lowercase to_lowercase cased case_ignorable needle
    (hits (lowered to_lowercase haystack) 0 lowered_needle).map fun found =>
      (sort_dedup (found.map Prod.snd),
        score (lowered to_lowercase haystack) found lowered_needle.length)

def fuzzy_indices (haystack needle : Text) : Option (List Nat) :=
  (fuzzy_match to_lowercase cased case_ignorable haystack needle).map fun matched =>
    sort_dedup matched.1

/-- The lower case of the characters at the indices. -/
def lowercase_at (haystack : Text) (indices : List Nat) : Text :=
  (haystack.zipIdx.filter fun p => p.2 ∈ indices).flatMap fun p => to_lowercase p.1

end matcher

variable {to_lowercase : Char → List Char} {cased case_ignorable : Char → Bool}

/-! ## Hits -/

theorem lowered_chars (haystack : Text) :
    (lowered to_lowercase haystack).map Prod.fst = chars_to_lowercase to_lowercase haystack := by
  unfold lowered chars_to_lowercase
  rw [List.map_flatMap]
  simp only [List.map_map, Function.comp_def, List.map_id']
  conv_rhs => rw [← List.zipIdx_map_fst 0 haystack]
  rw [List.flatMap_map]

/-- The loops find a needle exactly when it is a subsequence. -/
theorem hits_isSome_iff (rest : List (Char × Nat)) (cur : Nat) (needle : List Char) :
    (hits rest cur needle).isSome = true ↔ needle.Sublist (rest.map Prod.fst) := by
  induction rest generalizing cur needle with
  | nil => cases needle <;> simp [hits]
  | cons p rest ih =>
    obtain ⟨c, orig⟩ := p
    cases needle with
    | nil => simp [hits]
    | cons nc needle =>
      unfold hits
      rw [List.map_cons]
      split_ifs with hc
      · subst hc
        rw [Option.isSome_map, ih, List.cons_sublist_cons]
      · rw [ih, List.sublist_cons_iff]
        constructor
        · exact .inl
        · rintro (h | ⟨r, hr, -⟩)
          · exact h
          · exact absurd (List.cons.inj hr).1.symm hc

/-- Each hit is a character of the needle at its place, one behind the other. -/
theorem hits_sublist {rest : List (Char × Nat)} {cur : Nat} {needle : List Char}
    {found : List (Nat × Nat)} (h : hits rest cur needle = some found) :
    found.length = needle.length ∧ (needle.zip (found.map Prod.snd)).Sublist rest := by
  induction rest generalizing cur needle found with
  | nil =>
    cases needle with
    | nil =>
      obtain rfl := Option.some.inj h
      exact ⟨rfl, .slnil⟩
    | cons nc needle => cases h
  | cons p rest ih =>
    obtain ⟨c, orig⟩ := p
    cases needle with
    | nil =>
      obtain rfl := Option.some.inj h
      exact ⟨rfl, List.nil_sublist _⟩
    | cons nc needle =>
      unfold hits at h
      split_ifs at h with hc
      · subst hc
        obtain ⟨later, hlater, rfl⟩ := Option.map_eq_some_iff.mp h
        obtain ⟨hlen, hsub⟩ := ih hlater
        exact ⟨congrArg (· + 1) hlen, hsub.cons_cons (c, orig)⟩
      · obtain ⟨hlen, hsub⟩ := ih h
        exact ⟨hlen, hsub.cons (c, orig)⟩

/-! ## Indices -/

theorem mem_destutter' {a x : Nat} {l : List Nat} :
    x ∈ l.destutter' (· ≠ ·) a ↔ x = a ∨ x ∈ l := by
  induction l generalizing a with
  | nil => simp
  | cons b l ih =>
    rw [List.destutter'_cons]
    split_ifs with hne
    · rw [List.mem_cons, ih, List.mem_cons]
    · obtain rfl : a = b := not_not.mp hne
      rw [ih, List.mem_cons]
      tauto

theorem mem_sort_dedup {i : Nat} {l : List Nat} : i ∈ sort_dedup l ↔ i ∈ l := by
  unfold sort_dedup
  rw [← List.mem_insertionSort (· ≤ ·) (l := l)]
  cases l.insertionSort (· ≤ ·) with
  | nil => rfl
  | cons a l => rw [List.destutter_cons', mem_destutter', List.mem_cons]

theorem sort_dedup_pairwise (l : List Nat) : (sort_dedup l).Pairwise (· < ·) := by
  have hle : (sort_dedup l).Pairwise (· ≤ ·) :=
    (List.pairwise_insertionSort (· ≤ ·) l).sublist (List.destutter_sublist _ _)
  have hne : (sort_dedup l).IsChain (· ≠ ·) := List.isChain_destutter _ _
  apply List.isChain_iff_pairwise.mp
  generalize sort_dedup l = indices at hle hne
  induction indices with
  | nil => exact .nil
  | cons a indices ih =>
    cases indices with
    | nil => exact .singleton a
    | cons b indices =>
      rw [List.isChain_cons_cons] at hne ⊢
      rw [List.pairwise_cons] at hle
      exact ⟨lt_of_le_of_ne (hle.1 b List.mem_cons_self) hne.1, ih hle.2 hne.2⟩

theorem sort_dedup_idem (l : List Nat) : sort_dedup (sort_dedup l) = sort_dedup l := by
  have hlt := sort_dedup_pairwise l
  have hsorted : (sort_dedup l).insertionSort (· ≤ ·) = sort_dedup l :=
    List.Pairwise.insertionSort_eq (hlt.imp fun h => h.le)
  have hchain : (sort_dedup l).IsChain (· ≠ ·) := (hlt.imp fun h => h.ne).isChain
  calc sort_dedup (sort_dedup l)
      = ((sort_dedup l).insertionSort (· ≤ ·)).destutter (· ≠ ·) := rfl
    _ = (sort_dedup l).destutter (· ≠ ·) := by rw [hsorted]
    _ = sort_dedup l := List.destutter_of_isChain _ _ hchain

/-- The second sort of `fuzzy_indices` changes nothing. -/
theorem fuzzy_indices_eq (haystack needle : Text) :
    fuzzy_indices to_lowercase cased case_ignorable haystack needle =
      (fuzzy_match to_lowercase cased case_ignorable haystack needle).map Prod.fst := by
  unfold fuzzy_indices fuzzy_match
  split_ifs
  · rfl
  · dsimp only
    rw [Option.map_map, Option.map_map]
    congr 1
    funext found
    exact sort_dedup_idem _

/-- What a match points out: its indices are in order, inside the haystack, and the lower case of
the characters there has the needle as a subsequence. -/
structure Highlights (to_lowercase : Char → List Char) (haystack : Text)
    (lowered_needle : List Char) (indices : List Nat) : Prop where
  increasing : indices.Pairwise (· < ·)
  in_range : ∀ i ∈ indices, i < haystack.length
  covers : lowered_needle.Sublist (lowercase_at to_lowercase haystack indices)

theorem lowered_at (haystack : Text) (indices : List Nat) :
    ((lowered to_lowercase haystack).filter fun p => p.2 ∈ indices).map Prod.fst =
      lowercase_at to_lowercase haystack indices := by
  unfold lowered lowercase_at
  induction haystack.zipIdx with
  | nil => rfl
  | cons p l ih =>
    rw [List.flatMap_cons, List.filter_append, List.map_append, ih, List.filter_cons]
    split_ifs with hmem
    · have hall : ∀ q ∈ (to_lowercase p.1).map fun lc => (lc, p.2),
          (decide (q.2 ∈ indices)) = true := by
        intro q hq
        obtain ⟨lc, -, rfl⟩ := List.mem_map.mp hq
        exact hmem
      rw [List.filter_eq_self.mpr hall, List.flatMap_cons, List.map_map]
      simp [Function.comp_def]
    · have hnone : ∀ q ∈ (to_lowercase p.1).map fun lc => (lc, p.2),
          ¬ (decide (q.2 ∈ indices)) = true := by
        intro q hq
        obtain ⟨lc, -, rfl⟩ := List.mem_map.mp hq
        exact hmem
      rw [List.filter_eq_nil_iff.mpr hnone]
      rfl

theorem hits_highlight {haystack : Text} {needle : List Char} {found : List (Nat × Nat)}
    (h : hits (lowered to_lowercase haystack) 0 needle = some found) :
    Highlights to_lowercase haystack needle (sort_dedup (found.map Prod.snd)) := by
  obtain ⟨hlen, hsub⟩ := hits_sublist h
  have htags : (needle.zip (found.map Prod.snd)).map Prod.snd = found.map Prod.snd :=
    List.map_snd_zip (by simp [hlen])
  have hchars : (needle.zip (found.map Prod.snd)).map Prod.fst = needle :=
    List.map_fst_zip (by simp [hlen])
  refine ⟨sort_dedup_pairwise _, ?_, ?_⟩
  · intro i hi
    rw [mem_sort_dedup, ← htags] at hi
    obtain ⟨q, hq, rfl⟩ := List.mem_map.mp hi
    obtain ⟨p, hp, hmem⟩ := List.mem_flatMap.mp (hsub.subset hq)
    obtain ⟨lc, -, rfl⟩ := List.mem_map.mp hmem
    exact List.snd_lt_of_mem_zipIdx hp
  · have hall : ∀ q ∈ needle.zip (found.map Prod.snd),
        decide (q.2 ∈ sort_dedup (found.map Prod.snd)) = true := by
      intro q hq
      rw [decide_eq_true_iff, mem_sort_dedup, ← htags]
      exact List.mem_map_of_mem hq
    have hfiltered := hsub.filter fun q => decide (q.2 ∈ sort_dedup (found.map Prod.snd))
    rw [List.filter_eq_self.mpr hall] at hfiltered
    have hmapped := hfiltered.map Prod.fst
    rwa [hchars, lowered_at] at hmapped

/-! ## The two lower cases -/

theorem lowercase_from_eq (hsigma : to_lowercase 'Σ' = ['σ']) {t before : Text}
    (h : ∀ b after, t = b ++ 'Σ' :: after →
      is_word_final cased case_ignorable (before ++ b) after = false) :
    lowercase_from to_lowercase cased case_ignorable before t =
      chars_to_lowercase to_lowercase t := by
  induction t generalizing before with
  | nil => rfl
  | cons c t ih =>
    have hinside : ∀ b after, t = b ++ 'Σ' :: after →
        is_word_final cased case_ignorable (before ++ [c] ++ b) after = false := by
      intro b after ht
      have hwhole := h (c :: b) after (by rw [ht]; rfl)
      simpa using hwhole
    have hrest := ih hinside
    unfold lowercase_from
    rw [hrest]
    unfold chars_to_lowercase
    rw [List.flatMap_cons]
    congr 1
    split_ifs with hc hfinal
    · subst hc
      have hnot := h [] t rfl
      rw [List.append_nil] at hnot
      rw [hnot] at hfinal
      cases hfinal
    · subst hc
      exact hsigma.symm
    · rfl

theorem lowercase_from_cons (before t : Text) (c : Char) :
    lowercase_from to_lowercase cased case_ignorable before (c :: t) =
      (if c = 'Σ' then [if is_word_final cased case_ignorable before t then 'ς' else 'σ']
        else to_lowercase c) ++
        lowercase_from to_lowercase cased case_ignorable (before ++ [c]) t := rfl

/-- The two lower cases are as long, and they differ where a capital sigma ends a word. -/
theorem lowercase_from_length (hsigma : to_lowercase 'Σ' = ['σ']) (before t : Text) :
    (lowercase_from to_lowercase cased case_ignorable before t).length =
      (chars_to_lowercase to_lowercase t).length := by
  induction t generalizing before with
  | nil => rfl
  | cons c t ih =>
    unfold chars_to_lowercase at ih ⊢
    rw [lowercase_from_cons, List.length_append, List.flatMap_cons, List.length_append, ih]
    by_cases hc : c = 'Σ'
    · subst hc
      rw [if_pos rfl, hsigma]
      rfl
    · rw [if_neg hc]

theorem not_final_of_eq (hsigma : to_lowercase 'Σ' = ['σ']) {t before : Text}
    (h : lowercase_from to_lowercase cased case_ignorable before t =
      chars_to_lowercase to_lowercase t) :
    ∀ b after, t = b ++ 'Σ' :: after →
      is_word_final cased case_ignorable (before ++ b) after = false := by
  induction t generalizing before with
  | nil =>
    intro b after ht
    simp at ht
  | cons c t ih =>
    have hlen : (lowercase_from to_lowercase cased case_ignorable (before ++ [c]) t).length =
        (chars_to_lowercase to_lowercase t).length := lowercase_from_length hsigma (before ++ [c]) t
    unfold chars_to_lowercase at h hlen
    rw [lowercase_from_cons, List.flatMap_cons] at h
    obtain ⟨hhead, hrest⟩ := List.append_inj' h hlen
    intro b after ht
    rcases b with _ | ⟨d, b⟩
    · obtain ⟨rfl, rfl⟩ := List.cons.inj ht
      rw [if_pos rfl, hsigma] at hhead
      rw [List.append_nil]
      by_contra hfinal
      rw [Bool.not_eq_false] at hfinal
      rw [if_pos hfinal] at hhead
      exact absurd hhead (by decide)
    · obtain ⟨rfl, rfl⟩ := List.cons.inj ht
      have hinside := ih hrest b after rfl
      simpa using hinside

theorem str_to_lowercase_eq_iff (hsigma : to_lowercase 'Σ' = ['σ']) (t : Text) :
    str_to_lowercase to_lowercase cased case_ignorable t = chars_to_lowercase to_lowercase t ↔
      ¬ HasFinalSigma cased case_ignorable t := by
  constructor
  · rintro heq ⟨before, after, ht, hfinal⟩
    have hnot := not_final_of_eq hsigma heq before after ht
    rw [List.nil_append, hfinal] at hnot
    cases hnot
  · intro hnone
    apply lowercase_from_eq hsigma
    intro b after ht
    by_contra hfinal
    rw [Bool.not_eq_false, List.nil_append] at hfinal
    exact hnone ⟨b, after, ht, hfinal⟩

/-! ## Matches -/

/-- The matcher finds the needle exactly when its lower case, character by character, is a
subsequence of the haystack's, and then it points out where. -/
structure Correct (to_lowercase : Char → List Char) (cased case_ignorable : Char → Bool)
    (haystack needle : Text) : Prop where
  finds : (fuzzy_match to_lowercase cased case_ignorable haystack needle).isSome = true ↔
    (chars_to_lowercase to_lowercase needle).Sublist (chars_to_lowercase to_lowercase haystack)
  highlights : ∀ indices score,
    fuzzy_match to_lowercase cased case_ignorable haystack needle = some (indices, score) →
      Highlights to_lowercase haystack (str_to_lowercase to_lowercase cased case_ignorable needle)
        indices

theorem fuzzy_match_isSome_iff (haystack needle : Text) :
    (fuzzy_match to_lowercase cased case_ignorable haystack needle).isSome = true ↔
      (str_to_lowercase to_lowercase cased case_ignorable needle).Sublist
        (chars_to_lowercase to_lowercase haystack) := by
  unfold fuzzy_match
  by_cases hempty : needle = []
  · subst hempty
    rw [if_pos rfl]
    exact iff_of_true rfl (List.nil_sublist _)
  · rw [if_neg hempty]
    dsimp only
    rw [Option.isSome_map, hits_isSome_iff, lowered_chars]

theorem fuzzy_match_highlights {haystack needle : Text} {indices : List Nat} {score : Int}
    (h : fuzzy_match to_lowercase cased case_ignorable haystack needle = some (indices, score)) :
    Highlights to_lowercase haystack (str_to_lowercase to_lowercase cased case_ignorable needle)
      indices := by
  unfold fuzzy_match at h
  split_ifs at h with hempty
  · subst hempty
    obtain ⟨rfl, -⟩ := Prod.mk.inj (Option.some.inj h)
    exact ⟨.nil, by simp, List.nil_sublist _⟩
  · obtain ⟨found, hfound, heq⟩ := Option.map_eq_some_iff.mp h
    obtain ⟨rfl, -⟩ := Prod.mk.inj heq
    exact hits_highlight hfound

/-- A match is right unless a capital sigma ends a word of the needle and only one of its two
lower cases is in the haystack, and a needle is matched right in every haystack exactly when no
capital sigma ends a word of it. -/
theorem fuzzy_match_correct_iff (to_lowercase : Char → List Char)
    (cased case_ignorable : Char → Bool) (hsigma : to_lowercase 'Σ' = ['σ']) (needle : Text) :
    (∀ haystack, Correct to_lowercase cased case_ignorable haystack needle ↔
      (¬ HasFinalSigma cased case_ignorable needle ∨
        ((str_to_lowercase to_lowercase cased case_ignorable needle).Sublist
            (chars_to_lowercase to_lowercase haystack) ↔
          (chars_to_lowercase to_lowercase needle).Sublist
            (chars_to_lowercase to_lowercase haystack)))) ∧
      ((∀ haystack, Correct to_lowercase cased case_ignorable haystack needle) ↔
        ¬ HasFinalSigma cased case_ignorable needle) := by
  have hone : ∀ haystack, Correct to_lowercase cased case_ignorable haystack needle ↔
      ((str_to_lowercase to_lowercase cased case_ignorable needle).Sublist
          (chars_to_lowercase to_lowercase haystack) ↔
        (chars_to_lowercase to_lowercase needle).Sublist
          (chars_to_lowercase to_lowercase haystack)) := by
    intro haystack
    rw [← fuzzy_match_isSome_iff]
    exact ⟨fun h => h.finds, fun h => ⟨h, fun _ _ => fuzzy_match_highlights⟩⟩
  constructor
  · intro haystack
    rw [hone haystack]
    constructor
    · exact .inr
    · rintro (hnone | hboth)
      · rw [(str_to_lowercase_eq_iff hsigma needle).mpr hnone]
      · exact hboth
  · constructor
    · intro h
      -- The needle itself is a haystack, and the lower cases are as long.
      have hself := ((hone needle).mp (h needle)).mpr (List.Sublist.refl _)
      apply (str_to_lowercase_eq_iff hsigma needle).mp
      exact hself.eq_of_length (lowercase_from_length hsigma [] needle)
    · intro hnone haystack
      rw [hone haystack, (str_to_lowercase_eq_iff hsigma needle).mpr hnone]

/-- The lower case of the Greek capitals alpha and sigma. -/
def greek_lowercase (c : Char) : List Char :=
  if c = 'Α' then ['α'] else if c = 'Σ' then ['σ'] else [c]

/-- The two letters as a haystack do not hold themselves as a needle. -/
theorem sigma_does_not_match_itself :
    ¬ ∀ haystack needle, Correct greek_lowercase (fun _ => true) (fun _ => false) haystack
      needle := by
  intro h
  have hfinds := (h ['Α', 'Σ'] ['Α', 'Σ']).finds
  have hsub : (chars_to_lowercase greek_lowercase ['Α', 'Σ']).Sublist
    (chars_to_lowercase greek_lowercase ['Α', 'Σ']) := List.Sublist.refl _
  have hsome := hfinds.mpr hsub
  revert hsome
  decide

/-- A capital that is no sigma is found in either case. -/
theorem alpha_is_matched_right :
    Correct greek_lowercase (fun _ => true) (fun _ => false) ['Σ', 'α'] ['Α'] := by
  refine ((fuzzy_match_correct_iff greek_lowercase (fun _ => true) (fun _ => false) (by decide)
    ['Α']).1 ['Σ', 'α']).mpr (.inl ?_)
  rintro ⟨before, after, h, -⟩
  have hmem : 'Σ' ∈ ['Α'] := by simp [h]
  revert hmem
  decide

end Ecode.fuzzy
