-- The search for files by a fuzzy pattern (file-search/src/lib.rs): each worker keeps the best
-- matches among the files that it meets, and in the end the best of those are taken.
import Ecode.KeyedLists
import Ecode.Text
import Ecode.TopScores

namespace Ecode.file_search

open top_scores

/-! ## The program -/

/-- What is used of `nucleo_matcher::pattern::Pattern`. -/
structure Pattern where
  score : Text → Option Nat
  indices : Text → List Nat

/-- The heaps hold pairs of a score and a path, in the order of such pairs. -/
abbrev Scored := Nat ×ₗ Text

def score_of (m : Scored) : Nat := (ofLex m).1

def path_of (m : Scored) : Text := (ofLex m).2

structure FileMatch where
  score : Nat
  path : Text
  indices : Option (List Nat)
  deriving DecidableEq, Repr

structure FileSearchResults where
  found : List FileMatch
  total_match_count : Nat
  deriving DecidableEq, Repr

structure BestMatchesList where
  max_count : Nat
  num_matches : Nat
  binary_heap : List Scored

namespace BestMatchesList

def new (max_count : Nat) : BestMatchesList where
  max_count := max_count
  num_matches := 0
  binary_heap := []

def insert (pattern : Pattern) (best : BestMatchesList) (line : Text) : BestMatchesList :=
  match pattern.score line with
  | some score =>
    { best with
      num_matches := best.num_matches + 1
      binary_heap := offer score_of best.max_count best.binary_heap (toLex (score, line)) }
  | none => best

end BestMatchesList

def CHECK_INTERVAL : Nat := 1024

/-- One worker of the walk. An entry is the path of a file, or nothing where it is a directory, an
error or no text. `seen` tells whether the worker sees the cancel flag after so many entries. -/
def visit (pattern : Pattern) (seen : Nat → Bool) :
    Nat → List (Option Text) → BestMatchesList → BestMatchesList
  | _, [], best => best
  | processed, entry :: entries, best =>
    let best := match entry with
      | some path => best.insert pattern path
      | none => best
    if (processed + 1) % CHECK_INTERVAL = 0 && seen (processed + 1) then best
    else visit pattern seen (processed + 1) entries best

/-- By descending score, and then by ascending path. -/
def cmp_by_score_desc_then_path_asc (m : Scored) : Natᵒᵈ ×ₗ Text :=
  toLex (OrderDual.toDual (score_of m), path_of m)

def sort_matches (found : List Scored) : List Scored :=
  keyed.sort_by_key cmp_by_score_desc_then_path_asc found

/-- The entries that a worker meets, and when it sees the cancel flag. -/
structure Worker where
  entries : List (Option Text)
  seen : Nat → Bool

/-- `iter` is the order in which a heap is iterated. -/
def run (pattern : Pattern) (limit : Nat) (workers : List Worker) (cancel_flag : Bool)
    (compute_indices : Bool) (iter : List Scored → List Scored) : FileSearchResults :=
  let best_matchers_per_worker := workers.map fun w =>
    visit pattern w.seen 0 w.entries (.new limit)
  if cancel_flag then ⟨[], 0⟩
  else
    let global_heap := best_matchers_per_worker.foldl
      (fun heap best_list => (iter best_list.binary_heap).foldl (offer score_of limit) heap) []
    let raw_matches := sort_matches (iter global_heap)
    { found := raw_matches.map fun m =>
        { score := score_of m
          path := path_of m
          indices :=
            if compute_indices then
              some (((pattern.indices (path_of m)).insertionSort (· ≤ ·)).destutter (· ≠ ·))
            else none }
      total_match_count := (best_matchers_per_worker.map fun best => best.num_matches).sum }

/-! ## What a worker keeps -/

/-- The matches among the files, as the heaps hold them. -/
def matched (pattern : Pattern) (entries : List (Option Text)) : List Scored :=
  entries.reduceOption.filterMap fun path => (pattern.score path).map fun score => toLex (score, path)

variable {pattern : Pattern} {best : BestMatchesList} {all : Multiset Scored}

theorem score_of_monotone : Monotone score_of := Prod.Lex.monotone_fst

/-- The list holds the best of what it was given, and counts it. -/
structure Keeps (best : BestMatchesList) (all : Multiset Scored) : Prop where
  heap : Best score_of best.max_count all best.binary_heap
  count : best.num_matches = all.card

theorem keeps_new (max_count : Nat) : Keeps (.new max_count) 0 :=
  ⟨best_zero, rfl⟩

theorem max_count_insert (line : Text) : (best.insert pattern line).max_count = best.max_count := by
  unfold BestMatchesList.insert
  split <;> rfl

theorem Keeps.insert (h : Keeps best all) (line : Text) :
    Keeps (best.insert pattern line) (all + matched pattern [some line]) := by
  unfold BestMatchesList.insert matched
  cases hscore : pattern.score line with
  | none => simpa [List.reduceOption, hscore] using h
  | some score =>
    have hone : (([some line].reduceOption.filterMap fun path =>
        (pattern.score path).map fun score => toLex (score, path)) : Multiset Scored) =
        {toLex (score, line)} := by
      simp [List.reduceOption, hscore]
    rw [hone, Multiset.add_comm, Multiset.singleton_add]
    exact ⟨h.heap.offer score_of_monotone _, by simp [h.count]⟩

theorem matched_cons (entry : Option Text) (entries : List (Option Text)) :
    matched pattern (entry :: entries) = matched pattern [entry] ++ matched pattern entries := by
  unfold matched
  rw [← List.filterMap_append]
  cases entry <;> simp [List.reduceOption]

/-- A worker that does not see the cancel flag keeps the best of all its files. -/
theorem keeps_visit {seen : Nat → Bool} (hseen : ∀ n, seen n = false) (processed : Nat)
    (entries : List (Option Text)) (h : Keeps best all) :
    Keeps (visit pattern seen processed entries best) (all + matched pattern entries) ∧
      (visit pattern seen processed entries best).max_count = best.max_count := by
  induction entries generalizing processed best all with
  | nil => simpa [visit, matched] using h
  | cons entry entries ih =>
    unfold visit
    rw [hseen, Bool.and_false, matched_cons, ← Multiset.coe_add, ← add_assoc]
    dsimp only [Bool.false_eq_true, if_false]
    cases entry with
    | none =>
      have hnone : matched pattern [none] = [] := rfl
      rw [hnone, Multiset.coe_nil, add_zero]
      exact ih (processed + 1) h
    | some path =>
      obtain ⟨hkeeps, hmax⟩ := ih (processed + 1) (h.insert path)
      exact ⟨hkeeps, hmax.trans (max_count_insert path)⟩

/-! ## The merge -/

/-- Merging the best of each worker gives the best of all their files. -/
theorem best_merge {max : Nat} {iter : List Scored → List Scored}
    (hiter : ∀ heap, (iter heap).Perm heap) {lists : List BestMatchesList}
    {each : List (Multiset Scored)}
    (hlists : List.Forall₂ (fun best all => Best score_of max all best.binary_heap) lists each)
    {heap : List Scored} (h : Best score_of max all heap) :
    Best score_of max (all + each.sum)
      (lists.foldl (fun heap best => (iter best.binary_heap).foldl (offer score_of max) heap)
        heap : List Scored) := by
  induction hlists generalizing heap all with
  | nil => simpa using h
  | cons hfirst _ ih =>
    rw [List.sum_cons, ← add_assoc]
    exact ih (h.offers_best score_of_monotone hfirst (hiter _))

/-- The files of all workers that match. -/
def all_matched (pattern : Pattern) (workers : List Worker) : List Scored :=
  workers.flatMap fun w => matched pattern w.entries

theorem all_matched_sum (pattern : Pattern) (workers : List Worker) :
    (all_matched pattern workers : Multiset Scored) =
      (workers.map fun w => (matched pattern w.entries : Multiset Scored)).sum := by
  unfold all_matched
  induction workers with
  | nil => rfl
  | cons w workers ih => rw [List.flatMap_cons, ← Multiset.coe_add, ih, List.map_cons, List.sum_cons]

theorem matches_sorted (found : List Scored) :
    (sort_matches found).Pairwise fun a b =>
      score_of b < score_of a ∨ score_of b = score_of a ∧ path_of a ≤ path_of b := by
  refine (keyed.sort_by_key_sorted found).imp fun {a b} h => ?_
  rcases Prod.Lex.le_iff.mp h with hlt | ⟨heq, hle⟩
  · exact .inl (OrderDual.toDual_lt_toDual.mp hlt)
  · exact .inr ⟨(OrderDual.toDual_inj.mp heq).symm, hle⟩

/-- `Vec::dedup` loses no value. -/
theorem mem_dedup (a i : Nat) (l : List Nat) (hi : i ∈ a :: l) : i ∈ l.destutter' (· ≠ ·) a := by
  induction l generalizing a with
  | nil => simpa using hi
  | cons b l ih =>
    by_cases hab : a = b
    · rw [List.destutter'_cons_neg _ (by simpa using hab)]
      refine ih a ?_
      simpa [hab] using hi
    · rw [List.destutter'_cons_pos _ hab]
      rcases List.mem_cons.mp hi with rfl | hrest
      · exact List.mem_cons_self
      · exact List.mem_cons_of_mem a (ih b hrest)

/-- The indices of a match are sorted, and each is there once. -/
theorem indices_spec (l : List Nat) :
    ((l.insertionSort (· ≤ ·)).destutter (· ≠ ·)).Pairwise (· < ·) ∧
      ∀ i, i ∈ (l.insertionSort (· ≤ ·)).destutter (· ≠ ·) ↔ i ∈ l := by
  have hsublist := List.destutter_sublist (R := (· ≠ ·)) (l.insertionSort (· ≤ ·))
  constructor
  · have hsorted := (List.pairwise_insertionSort (· ≤ ·) l).sublist hsublist
    have hchain := List.isChain_destutter (R := (· ≠ ·)) (l.insertionSort (· ≤ ·))
    refine List.isChain_iff_pairwise.mp (List.isChain_iff_getElem.mpr fun i hi => ?_)
    exact lt_of_le_of_ne (List.isChain_iff_getElem.mp hsorted.isChain i hi)
      (List.isChain_iff_getElem.mp hchain i hi)
  · intro i
    rw [← List.mem_insertionSort (· ≤ ·) (l := l)]
    refine ⟨fun hi => hsublist.subset hi, fun hi => ?_⟩
    cases hl : l.insertionSort (· ≤ ·) with
    | nil =>
      rw [hl] at hi
      cases hi
    | cons a rest =>
      rw [hl] at hi
      exact mem_dedup a i rest hi

/-! ## A search that is not cancelled -/

section search

variable {limit : Nat} {workers : List Worker}

/-- The lists that the workers fill. -/
def filled (pattern : Pattern) (limit : Nat) (workers : List Worker) : List BestMatchesList :=
  workers.map fun w => visit pattern w.seen 0 w.entries (.new limit)

theorem keeps_worker (pattern : Pattern) (limit : Nat) {w : Worker}
    (hseen : ∀ n, w.seen n = false) :
    Keeps (visit pattern w.seen 0 w.entries (.new limit)) (matched pattern w.entries) ∧
      (visit pattern w.seen 0 w.entries (.new limit)).max_count = limit := by
  rw [← zero_add (matched pattern w.entries : Multiset Scored)]
  exact keeps_visit hseen 0 w.entries (keeps_new limit)

theorem count_filled (hseen : ∀ w ∈ workers, ∀ n, w.seen n = false) :
    ((filled pattern limit workers).map fun best => best.num_matches).sum =
      (all_matched pattern workers).length := by
  unfold filled all_matched
  rw [List.length_flatMap, List.map_map]
  refine congrArg List.sum (List.map_congr_left fun w hw => ?_)
  simpa using (keeps_worker pattern limit (hseen w hw)).1.count

/-- The heap after the merge. -/
theorem best_global_heap (pattern : Pattern) (limit : Nat) {workers : List Worker}
    (hseen : ∀ w ∈ workers, ∀ n, w.seen n = false)
    {iter : List Scored → List Scored} (hiter : ∀ heap, (iter heap).Perm heap) :
    Best score_of limit (all_matched pattern workers)
      ((filled pattern limit workers).foldl
        (fun heap best => (iter best.binary_heap).foldl (offer score_of limit) heap)
        [] : List Scored) := by
  have hlists : List.Forall₂ (fun best all => Best score_of limit all best.binary_heap)
      (filled pattern limit workers)
      (workers.map fun w => (matched pattern w.entries : Multiset Scored)) := by
    unfold filled
    rw [List.forall₂_map_left_iff, List.forall₂_map_right_iff, List.forall₂_same]
    intro w hw
    obtain ⟨hkeeps, hmax⟩ := keeps_worker pattern limit (hseen w hw)
    have hheap := hkeeps.heap
    rwa [hmax] at hheap
  have hmerged := best_merge hiter hlists (best_zero : Best score_of limit 0 ([] : List Scored))
  rwa [zero_add, ← all_matched_sum] at hmerged

end search

end Ecode.file_search

namespace Ecode

open file_search top_scores

/-- Whichever worker met a file, and in whatever order files were met and heaps iterated: a search
that is not cancelled counts every match and returns as many as the limit allows, those with the
highest scores of all, by descending score and then by path. -/
theorem file_search_best (pattern : Pattern) (limit : Nat) (workers : List Worker)
    (cancel_flag compute_indices : Bool) (iter : List Scored → List Scored)
    (hiter : ∀ heap, (iter heap).Perm heap)
    (hseen : ∀ w ∈ workers, ∀ n, w.seen n = true → cancel_flag = true) :
    let results := run pattern limit workers cancel_flag compute_indices iter
    let found := all_matched pattern workers
    (cancel_flag = true → results = ⟨[], 0⟩) ∧
    (cancel_flag = false →
      results.total_match_count = found.length ∧
      results.found.map FileMatch.score =
        ((found.map score_of).insertionSort (· ≥ ·)).take limit ∧
      (results.found.map fun m => toLex (m.score, m.path)).Subperm found ∧
      (results.found.Pairwise fun a b =>
        b.score < a.score ∨ b.score = a.score ∧ a.path ≤ b.path) ∧
      ∀ m ∈ results.found, ∀ indices ∈ m.indices, indices.Pairwise (· < ·) ∧
        ∀ i, i ∈ indices ↔ i ∈ pattern.indices m.path) := by
  intro results found
  constructor
  · rintro rfl
    rfl
  · rintro rfl
    have hunseen : ∀ w ∈ workers, ∀ n, w.seen n = false := by
      intro w hw n
      by_contra hsaw
      exact absurd (hseen w hw n (by simpa using hsaw)) Bool.false_ne_true
    have hheap := best_global_heap pattern limit hunseen hiter
    let raw := sort_matches (iter ((filled pattern limit workers).foldl
      (fun heap best => (iter best.binary_heap).foldl (offer score_of limit) heap) []))
    have hperm : raw.Perm ((filled pattern limit workers).foldl
        (fun heap best => (iter best.binary_heap).foldl (offer score_of limit) heap) []) :=
      (keyed.sort_by_key_perm _).trans (hiter _)
    rw [← Multiset.coe_eq_coe.mpr hperm] at hheap
    have hsorted := matches_sorted (iter ((filled pattern limit workers).foldl
      (fun heap best => (iter best.binary_heap).foldl (offer score_of limit) heap) []))
    refine ⟨count_filled hunseen, ?_, ?_, ?_, ?_⟩
    · calc results.found.map FileMatch.score = raw.map score_of := by
            rw [show results.found = raw.map _ from rfl, List.map_map]
            rfl
        _ = ((found.map score_of).insertionSort (· ≥ ·)).take limit :=
            hheap.scores (hsorted.imp fun hab => hab.elim le_of_lt fun heq => heq.1.le)
    · have hsame : (results.found.map fun m => toLex (m.score, m.path)) = raw := by
        rw [show results.found = raw.map _ from rfl, List.map_map]
        exact List.map_id raw
      rw [hsame]
      exact Multiset.coe_le.mp hheap.le
    · rw [show results.found = raw.map _ from rfl, List.pairwise_map]
      exact hsorted
    · intro m hm indices hindices
      obtain ⟨scored, -, rfl⟩ := List.mem_map.mp hm
      cases compute_indices with
      | false => cases hindices
      | true =>
        obtain rfl := Option.some.inj hindices
        exact indices_spec _

/-- The score of a path is its length, and paths with an underscore do not match. -/
def by_length : Pattern where
  score := fun path => if '_' ∈ path then none else some path.length
  indices := fun path => (List.range path.length).reverse

theorem file_search_two_workers :
    let workers : List Worker :=
      [⟨[some "src".toList, none, some "main".toList], fun _ => false⟩,
        ⟨[some "a_b".toList, some "docs".toList, some "x".toList], fun _ => false⟩]
    (run by_length 2 workers false true List.reverse).total_match_count = 4 ∧
      (run by_length 2 workers false true List.reverse).found.map FileMatch.score = [4, 4] := by
  intro workers
  obtain ⟨htotal, hscores, -⟩ := (file_search_best by_length 2 workers false true List.reverse
    (fun heap => heap.reverse_perm) (by simp [workers])).2 rfl
  exact ⟨htotal.trans rfl, hscores.trans (by decide)⟩

end Ecode
