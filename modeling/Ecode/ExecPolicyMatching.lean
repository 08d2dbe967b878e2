-- The positional arguments of a call are matched exactly when they can be divided among the
-- patterns, and then every argument is listed with the type of its pattern
-- (execpolicy/src/arg_resolver.rs).
import Ecode.ExecPolicy

namespace Ecode.execpolicy

/-! ## Results -/

section results

variable {α β : Type}

theorem bind_eq_ok {x : Result α} {f : α → Result β} {b : β} :
    (x >>= f) = .ok b ↔ ∃ a, x = .ok a ∧ f a = .ok b := by
  cases x with
  | error e => simp [bind, Except.bind]
  | ok a => simp [bind, Except.bind]

/-- Not a panic. -/
def Safe (x : Result α) : Prop := x ≠ .error .panic

theorem Safe.ok (a : α) : Safe (.ok a : Result α) := by
  rintro ⟨⟩

theorem Safe.err (e : Error) : Safe (err e : Result α) := by
  rintro ⟨⟩

theorem Safe.bind {x : Result α} {f : α → Result β} (hx : Safe x)
    (hf : ∀ a, x = .ok a → Safe (f a)) : Safe (x >>= f) := by
  cases x with
  | error e =>
    intro h
    apply hx
    simpa [Bind.bind, Except.bind] using h
  | ok a => exact hf a rfl

theorem Safe.ite {c : Prop} [Decidable c] {x y : Result α} (hx : Safe x) (hy : Safe y) :
    Safe (if c then x else y) := by
  split_ifs
  · exact hx
  · exact hy

theorem slice_ok {xs : List α} {start stop : Nat} (h : start ≤ stop ∧ stop ≤ xs.length) :
    slice xs start stop = .ok ((xs.drop start).take (stop - start)) := if_pos h

theorem get_range_checked_safe (xs : List α) (start stop : Nat) :
    Safe (get_range_checked xs start stop) := by
  unfold get_range_checked
  split_ifs with hstart hstop
  · exact .err _
  · exact .err _
  · rw [slice_ok (by omega)]
    exact .ok _

theorem get_range_checked_eq_ok {xs : List α} {start stop : Nat} {ys : List α} :
    get_range_checked xs start stop = .ok ys ↔
      start ≤ stop ∧ stop ≤ xs.length ∧ ys = (xs.drop start).take (stop - start) := by
  unfold get_range_checked
  split_ifs with hstart hstop
  · exact iff_of_false (by rintro ⟨⟩) (by omega)
  · exact iff_of_false (by rintro ⟨⟩) (by omega)
  · rw [slice_ok (by omega), Except.ok.injEq]
    constructor
    · rintro rfl
      exact ⟨by omega, by omega, rfl⟩
    · rintro ⟨-, -, rfl⟩
      rfl

end results

/-! ## Matches of one pattern -/

theorem parse_sed_command_safe (sed_command : Text) : Safe (parse_sed_command sed_command) := by
  unfold parse_sed_command
  dsimp only
  split
  · exact .ok _
  · exact .err _

theorem validate_safe (type : ArgType) (value : Text) : Safe (type.validate value) := by
  cases type with
  | Literal literal_value => exact .ite (.err _) (.ok _)
  | ReadableFile => exact .ite (.err _) (.ok _)
  | WriteableFile => exact .ite (.err _) (.ok _)
  | PositiveInteger =>
    unfold ArgType.validate
    dsimp only
    split
    · exact .err _
    · exact .ok _
    · exact .err _
  | SedCommand => exact parse_sed_command_safe value
  | OpaqueNonFile => exact .ok _
  | Unknown => exact .ok _

/-- The value is one of this type. -/
def Valid (type : ArgType) (value : Text) : Prop := type.validate value = .ok ()

/-- What is listed for an argument that is matched by a pattern. -/
def matched (pattern : ArgMatcher) (arg : PositionalArg) : MatchedArg :=
  ⟨arg.index, pattern.arg_type, arg.value⟩

theorem matched_new_safe (index : Nat) (type : ArgType) (value : Text) :
    Safe (MatchedArg.new index type value) :=
  (validate_safe type value).bind fun _ _ => .ok _

theorem matched_new_eq_ok {pattern : ArgMatcher} {arg : PositionalArg} {m : MatchedArg} :
    MatchedArg.new arg.index pattern.arg_type arg.value = .ok m ↔
      Valid pattern.arg_type arg.value ∧ m = matched pattern arg := by
  unfold MatchedArg.new Valid matched
  rw [bind_eq_ok]
  constructor
  · rintro ⟨⟨⟩, hvalid, hm⟩
    exact ⟨hvalid, (Except.ok.inj hm).symm⟩
  · rintro ⟨hvalid, rfl⟩
    exact ⟨(), hvalid, rfl⟩

theorem match_pattern_safe (pattern : ArgMatcher) (args : List PositionalArg) :
    Safe (match_pattern pattern args) := by
  unfold match_pattern
  induction args with
  | nil => exact .ok _
  | cons arg args ih =>
    rw [List.mapM_cons]
    exact (matched_new_safe _ _ _).bind fun _ _ => ih.bind fun _ _ => .ok _

theorem match_pattern_eq_ok {pattern : ArgMatcher} {args : List PositionalArg}
    {ms : List MatchedArg} : match_pattern pattern args = .ok ms ↔
      (∀ arg ∈ args, Valid pattern.arg_type arg.value) ∧ ms = args.map (matched pattern) := by
  unfold match_pattern
  induction args generalizing ms with
  | nil =>
    rw [List.mapM_nil]
    simp [pure, Except.pure, eq_comm]
  | cons arg args ih =>
    rw [List.mapM_cons, bind_eq_ok]
    simp only [bind_eq_ok, ih, matched_new_eq_ok, List.forall_mem_cons, List.map_cons]
    constructor
    · rintro ⟨m, ⟨hvalid, rfl⟩, rest, ⟨hrest, rfl⟩, hms⟩
      exact ⟨⟨hvalid, hrest⟩, (Except.ok.inj hms).symm⟩
    · rintro ⟨⟨hvalid, hrest⟩, rfl⟩
      exact ⟨_, ⟨hvalid, rfl⟩, _, ⟨hrest, rfl⟩, rfl⟩

/-! ## Divisions -/

def ArgMatcher.is_vararg (pattern : ArgMatcher) : Bool := pattern.cardinality.is_exact.isNone

/-- No pattern of the list is a vararg. -/
def Exact (patterns : List ArgMatcher) : Prop := ∀ p ∈ patterns, p.is_vararg = false

/-- The arguments are divided, in order, among the patterns: one for each exact pattern, any number
for a vararg pattern, where some need one. -/
inductive Divided : List ArgMatcher → List PositionalArg → List MatchedArg → Prop
  | nil : Divided [] [] []
  | exact {pattern patterns arg args ms} : pattern.cardinality = .One →
      Valid pattern.arg_type arg.value → Divided patterns args ms →
      Divided (pattern :: patterns) (arg :: args) (matched pattern arg :: ms)
  | vararg {pattern patterns first args ms} : pattern.cardinality ≠ .One →
      (pattern.cardinality = .AtLeastOne → first ≠ []) →
      (∀ arg ∈ first, Valid pattern.arg_type arg.value) → Divided patterns args ms →
      Divided (pattern :: patterns) (first ++ args) (first.map (matched pattern) ++ ms)

theorem is_exact_cases (pattern : ArgMatcher) :
    (pattern.cardinality.is_exact = some 1 ∧ pattern.is_vararg = false ∧
      pattern.cardinality = .One) ∨
    (pattern.cardinality.is_exact = none ∧ pattern.is_vararg = true ∧
      pattern.cardinality ≠ .One) := by
  cases pattern <;>
    simp [ArgMatcher.is_vararg, ArgMatcher.cardinality, ArgMatcherCardinality.is_exact]

section divided

variable {pattern : ArgMatcher} {patterns : List ArgMatcher} {args : List PositionalArg}
  {ms : List MatchedArg}

theorem exact_of_not_vararg (h : pattern.is_vararg = false) :
    pattern.cardinality.is_exact = some 1 ∧ pattern.cardinality = .One := by
  rcases is_exact_cases pattern with ⟨hexact, -, hone⟩ | ⟨-, hvararg, -⟩
  · exact ⟨hexact, hone⟩
  · rw [hvararg] at h
    cases h

theorem divided_nil_iff : Divided [] args ms ↔ args = [] ∧ ms = [] := by
  constructor
  · rintro ⟨⟩
    exact ⟨rfl, rfl⟩
  · rintro ⟨rfl, rfl⟩
    exact .nil

theorem divided_exact_iff (h : pattern.is_vararg = false) :
    Divided (pattern :: patterns) args ms ↔ ∃ arg rest ms', args = arg :: rest ∧
      ms = matched pattern arg :: ms' ∧ Valid pattern.arg_type arg.value ∧
      Divided patterns rest ms' := by
  have hone := (exact_of_not_vararg h).2
  constructor
  · intro hdivided
    cases hdivided with
    | exact _ hvalid hrest => exact ⟨_, _, _, rfl, rfl, hvalid, hrest⟩
    | vararg hnot => exact absurd hone hnot
  · rintro ⟨arg, rest, ms', rfl, rfl, hvalid, hrest⟩
    exact .exact hone hvalid hrest

/-- Exact patterns take as many arguments as they are. -/
theorem divided_length (h : Exact patterns)
    (hdivided : Divided patterns args ms) : args.length = patterns.length := by
  induction patterns generalizing args ms with
  | nil => simp [(divided_nil_iff.mp hdivided).1]
  | cons p ps ih =>
    obtain ⟨hp, hps⟩ := List.forall_mem_cons.mp h
    obtain ⟨arg, rest, ms', rfl, -, -, hrest⟩ := (divided_exact_iff hp).mp hdivided
    simp [ih hps hrest]

/-- The arguments of one list of patterns behind those of another. -/
theorem divided_append_iff {before : List ArgMatcher} :
    Divided (before ++ patterns) args ms ↔ ∃ args₁ args₂ ms₁ ms₂, args = args₁ ++ args₂ ∧
      ms = ms₁ ++ ms₂ ∧ Divided before args₁ ms₁ ∧ Divided patterns args₂ ms₂ := by
  constructor
  · intro h
    induction before generalizing args ms with
    | nil => exact ⟨[], args, [], ms, rfl, rfl, .nil, h⟩
    | cons p before ih =>
      cases h with
      | exact hone hvalid hrest =>
        obtain ⟨args₁, args₂, ms₁, ms₂, rfl, rfl, hbefore, hpatterns⟩ := ih hrest
        exact ⟨_ :: args₁, args₂, _ :: ms₁, ms₂, rfl, rfl, .exact hone hvalid hbefore, hpatterns⟩
      | vararg hnot hsome hvalid hrest =>
        obtain ⟨args₁, args₂, ms₁, ms₂, rfl, rfl, hbefore, hpatterns⟩ := ih hrest
        refine ⟨_, args₂, _, ms₂, (List.append_assoc _ _ _).symm, (List.append_assoc _ _ _).symm,
          .vararg hnot hsome hvalid hbefore, hpatterns⟩
  · rintro ⟨args₁, args₂, ms₁, ms₂, rfl, rfl, hbefore, hpatterns⟩
    induction hbefore with
    | nil => exact hpatterns
    | exact hone hvalid _ ih => exact .exact hone hvalid ih
    | vararg hnot hsome hvalid _ ih =>
      rw [List.append_assoc, List.append_assoc]
      exact .vararg hnot hsome hvalid ih

theorem divided_cons_iff : Divided (pattern :: patterns) args ms ↔
    ∃ args₁ args₂ ms₁ ms₂, args = args₁ ++ args₂ ∧ ms = ms₁ ++ ms₂ ∧
      Divided [pattern] args₁ ms₁ ∧ Divided patterns args₂ ms₂ := by
  rw [← List.singleton_append, divided_append_iff]

/-- Every argument is listed once, in order, with its own index and value. -/
theorem divided_args (h : Divided patterns args ms) :
    ms.map (fun m => (m.index, m.value)) = args.map fun arg => (arg.index, arg.value) := by
  induction h with
  | nil => rfl
  | exact _ _ _ ih => simp [matched, ih]
  | vararg _ _ _ _ ih => simp [matched, ih]

end divided

/-! ## Exact patterns -/

section exact

variable {patterns : List ArgMatcher} {args : List PositionalArg} {i : Nat}

theorem match_exact_safe (h : Exact patterns)
    (hlen : i + patterns.length ≤ args.length) : Safe (match_exact args i patterns) := by
  induction patterns generalizing i with
  | nil => exact .ok _
  | cons p ps ih =>
    have h := List.forall_mem_cons.mp h
    rw [List.length_cons] at hlen
    unfold match_exact
    rw [(exact_of_not_vararg h.1).1]
    dsimp only
    rw [slice_ok (by omega)]
    refine (Safe.ok _).bind fun _ _ => (match_pattern_safe _ _).bind fun _ _ => ?_
    exact (ih h.2 (by omega)).bind fun _ _ => .ok _

theorem match_exact_eq_ok (h : Exact patterns)
    (hlen : i + patterns.length ≤ args.length) {ms : List MatchedArg} {j : Nat} :
    match_exact args i patterns = .ok (ms, j) ↔
      Divided patterns ((args.drop i).take patterns.length) ms ∧ j = i + patterns.length := by
  induction patterns generalizing i ms j with
  | nil =>
    simp only [match_exact, Except.ok.injEq, Prod.mk.injEq, List.length_nil, List.take_zero,
      divided_nil_iff, true_and, Nat.add_zero]
    exact and_congr eq_comm eq_comm
  | cons p ps ih =>
    have h := List.forall_mem_cons.mp h
    rw [List.length_cons] at hlen ⊢
    have hdrop : args.drop i = args[i] :: args.drop (i + 1) := List.drop_eq_getElem_cons (by omega)
    have hone : (args.drop i).take (i + 1 - i) = [args[i]] := by
      rw [hdrop, Nat.add_sub_cancel_left]
      rfl
    unfold match_exact
    rw [(exact_of_not_vararg h.1).1]
    dsimp only
    rw [slice_ok (by omega), hone, hdrop, List.take_succ_cons, divided_exact_iff h.1]
    have hrest := @ih (i + 1) h.2 (by omega)
    constructor
    · intro hok
      obtain ⟨observed, hobserved, hok⟩ := bind_eq_ok.mp hok
      obtain rfl := Except.ok.inj hobserved
      obtain ⟨found, hfound, hok⟩ := bind_eq_ok.mp hok
      obtain ⟨hvalid, rfl⟩ := match_pattern_eq_ok.mp hfound
      obtain ⟨⟨rest, index⟩, hindex, hok⟩ := bind_eq_ok.mp hok
      obtain ⟨hdivided, rfl⟩ := hrest.mp hindex
      obtain ⟨rfl, rfl⟩ := Prod.mk.inj (Except.ok.inj hok)
      exact ⟨⟨_, _, rest, rfl, rfl, hvalid _ (by simp), hdivided⟩, by omega⟩
    · rintro ⟨⟨arg, others, ms', hargs, rfl, hvalid, hdivided⟩, rfl⟩
      obtain ⟨rfl, rfl⟩ := List.cons.inj hargs
      refine bind_eq_ok.mpr ⟨_, rfl, bind_eq_ok.mpr ⟨_, match_pattern_eq_ok.mpr ⟨?_, rfl⟩, ?_⟩⟩
      · simpa using hvalid
      · refine bind_eq_ok.mpr ⟨_, hrest.mpr ⟨hdivided, rfl⟩, ?_⟩
        simp [pure, Except.pure]
        omega

end exact

/-! ## The parts of a list of patterns -/

section parts

variable {program : Text} {patterns before after : List ArgMatcher} {v w : ArgMatcher}

theorem partition_front (h : Exact patterns) (parts : ParitionedArgs) (rest : List ArgMatcher) :
    partition_args_from program true parts (patterns ++ rest) =
      partition_args_from program true
        { parts with
          prefix_patterns := parts.prefix_patterns ++ patterns
          num_prefix_args := parts.num_prefix_args + patterns.length } rest := by
  induction patterns generalizing parts with
  | nil => simp
  | cons p ps ih =>
    obtain ⟨hp, hps⟩ := List.forall_mem_cons.mp h
    rw [List.cons_append, partition_args_from, (exact_of_not_vararg hp).1]
    dsimp only
    rw [if_pos rfl, ih hps]
    simp only [List.append_assoc, List.singleton_append, List.length_cons]
    congr 2
    omega

theorem partition_suffix (h : Exact patterns) (parts : ParitionedArgs) (rest : List ArgMatcher) :
    partition_args_from program false parts (patterns ++ rest) =
      partition_args_from program false
        { parts with
          suffix_patterns := parts.suffix_patterns ++ patterns
          num_suffix_args := parts.num_suffix_args + patterns.length } rest := by
  induction patterns generalizing parts with
  | nil => simp
  | cons p ps ih =>
    obtain ⟨hp, hps⟩ := List.forall_mem_cons.mp h
    rw [List.cons_append, partition_args_from, (exact_of_not_vararg hp).1]
    dsimp only
    rw [if_neg Bool.false_ne_true, ih hps]
    simp only [List.append_assoc, List.singleton_append, List.length_cons]
    congr 2
    omega

theorem partition_first_vararg (h : v.is_vararg = true) ( in_prefix : Bool)
    {parts : ParitionedArgs} (hparts : parts.vararg_pattern = none) (rest : List ArgMatcher) :
    partition_args_from program in_prefix parts (v :: rest) =
      partition_args_from program false { parts with vararg_pattern := some v } rest := by
  have hnone : v.cardinality.is_exact = none := by simpa [ArgMatcher.is_vararg] using h
  simp [partition_args_from, hnone, hparts]

theorem partition_second_vararg (h : v.is_vararg = true) ( in_prefix : Bool)
    {parts : ParitionedArgs} (hparts : parts.vararg_pattern = some w) (rest : List ArgMatcher) :
    partition_args_from program in_prefix parts (v :: rest) =
      err (.MultipleVarargPatterns program w v) := by
  have hnone : v.cardinality.is_exact = none := by simpa [ArgMatcher.is_vararg] using h
  simp [partition_args_from, hnone, hparts]

/-- A list of patterns up to its first vararg. -/
theorem first_vararg (patterns : List ArgMatcher) : Exact patterns ∨
    ∃ before v after, patterns = before ++ v :: after ∧ Exact before ∧ v.is_vararg = true := by
  induction patterns with
  | nil => exact .inl (by simp [Exact])
  | cons p ps ih =>
    rcases hp : p.is_vararg with _ | _
    · rcases ih with hps | ⟨before, v, after, rfl, hbefore, hv⟩
      · exact .inl (List.forall_mem_cons.mpr ⟨hp, hps⟩)
      · exact .inr ⟨p :: before, v, after, rfl, List.forall_mem_cons.mpr ⟨hp, hbefore⟩, hv⟩
    · exact .inr ⟨[], p, ps, rfl, by simp [Exact], hp⟩

theorem partition_exact (h : Exact patterns) :
    partition_args program patterns = .ok ⟨patterns.length, 0, patterns, [], none⟩ := by
  have hfront := @partition_front program _ h ⟨0, 0, [], [], none⟩ []
  rw [List.append_nil] at hfront
  unfold partition_args
  rw [hfront, partition_args_from]
  simp

theorem partition_one (hbefore : Exact before) (hv : v.is_vararg = true) (hafter : Exact after) :
    partition_args program (before ++ v :: after) =
      .ok ⟨before.length, after.length, before, after, some v⟩ := by
  have hsuffix := @partition_suffix program _ hafter
    ⟨before.length, 0, before, [], some v⟩ []
  rw [List.append_nil] at hsuffix
  unfold partition_args
  rw [partition_front hbefore, partition_first_vararg hv _ rfl]
  simpa [partition_args_from] using hsuffix

theorem partition_many (hbefore : Exact before) (hv : v.is_vararg = true)
    {middle : List ArgMatcher} (hmiddle : Exact middle) (hw : w.is_vararg = true) :
    partition_args program (before ++ v :: (middle ++ w :: after)) =
      err (.MultipleVarargPatterns program v w) := by
  unfold partition_args
  rw [partition_front hbefore, partition_first_vararg hv _ rfl, partition_suffix hmiddle]
  exact partition_second_vararg hw _ rfl after

end parts

/-! ## The resolved arguments -/

section resolve

variable {program : Text} {patterns before after : List ArgMatcher} {v : ArgMatcher}
  {args : List PositionalArg} {ms : List MatchedArg}

theorem match_vararg_safe (start stop : Nat) (vararg_pattern : Option ArgMatcher) :
    Safe (match_vararg program args start stop vararg_pattern) := by
  cases vararg_pattern with
  | none => exact .ok _
  | some pattern =>
    refine (get_range_checked_safe _ _ _).bind fun vararg _ => ?_
    split
    · exact .err _
    · exact .ite (.err _) (match_pattern_safe _ _)
    · exact match_pattern_safe _ _

theorem match_vararg_eq_ok (hv : v.is_vararg = true) {start stop : Nat} {m : List MatchedArg} :
    match_vararg program args start stop (some v) = .ok m ↔ start ≤ stop ∧ stop ≤ args.length ∧
      Divided [v] ((args.drop start).take (stop - start)) m := by
  have hmany : v.cardinality ≠ .One := by
    rcases is_exact_cases v with ⟨-, hnot, -⟩ | ⟨-, -, hmany⟩
    · rw [hv] at hnot
      cases hnot
    · exact hmany
  have hdivided : ∀ first, Divided [v] first m ↔ (v.cardinality = .AtLeastOne → first ≠ []) ∧
      (∀ arg ∈ first, Valid v.arg_type arg.value) ∧ m = first.map (matched v) := by
    intro first
    constructor
    · intro h
      cases h with
      | exact hone => exact absurd hone hmany
      | vararg _ hsome hvalid hrest =>
        obtain ⟨rfl, rfl⟩ := divided_nil_iff.mp hrest
        rw [List.append_nil, List.append_nil]
        exact ⟨hsome, hvalid, rfl⟩
    · rintro ⟨hsome, hvalid, rfl⟩
      have h := Divided.vararg hmany hsome hvalid .nil
      rwa [List.append_nil, List.append_nil] at h
  unfold match_vararg
  rw [bind_eq_ok, hdivided]
  simp only [get_range_checked_eq_ok]
  constructor
  · rintro ⟨first, ⟨hstart, hstop, rfl⟩, hmatch⟩
    refine ⟨hstart, hstop, ?_⟩
    split at hmatch
    · cases hmatch
    · split_ifs at hmatch with hnil
      · cases hmatch
      · exact ⟨fun _ => hnil, match_pattern_eq_ok.mp hmatch⟩
    · next hzero => exact ⟨by simp [hzero], match_pattern_eq_ok.mp hmatch⟩
  · rintro ⟨hstart, hstop, hsome, hmatch⟩
    refine ⟨_, ⟨hstart, hstop, rfl⟩, ?_⟩
    split
    · next hone => exact absurd hone hmany
    · next hleast =>
      rw [if_neg (hsome hleast)]
      exact match_pattern_eq_ok.mpr hmatch
    · exact match_pattern_eq_ok.mpr hmatch

theorem range_front (args : List PositionalArg) (n : Nat) :
    (args.drop 0).take (n - 0) = args.take n := by
  rw [List.drop_zero, Nat.sub_zero]

theorem range_suffix (args : List PositionalArg) (n : Nat) :
    (args.drop n).take (args.length - n) = args.drop n :=
  List.take_of_length_le (by rw [List.length_drop])

/-- Exact patterns and a whole slice. -/
theorem match_slice_eq_ok (h : Exact patterns) (hlen : args.length = patterns.length) {j : Nat} :
    match_exact args 0 patterns = .ok (ms, j) ↔ Divided patterns args ms ∧ j = patterns.length := by
  rw [match_exact_eq_ok h (by omega), List.drop_zero, ← hlen, List.take_length, Nat.zero_add]

/-- The three slices of the arguments, and what is matched in each of them. -/
theorem resolve_parts {vararg : Option ArgMatcher} (hbefore : Exact before) (hafter : Exact after)
    (hparts : partition_args program patterns =
      .ok ⟨before.length, after.length, before, after, vararg⟩) :
    resolve_observed_args_with_patterns program args patterns = .ok ms ↔
      before.length + after.length ≤ args.length ∧ ∃ m₁ m₂ m₃,
        Divided before (args.take before.length) m₁ ∧
        match_vararg program args before.length (args.length - after.length) vararg = .ok m₂ ∧
        Divided after (args.drop (args.length - after.length)) m₃ ∧
        args.length ≤ (m₁ ++ m₂ ++ m₃).length ∧ ms = m₁ ++ m₂ ++ m₃ := by
  unfold resolve_observed_args_with_patterns
  rw [hparts]
  constructor
  · intro hok
    obtain ⟨parts, hparts, hok⟩ := bind_eq_ok.mp hok
    obtain rfl := Except.ok.inj hparts
    obtain ⟨observed, hobserved, hok⟩ := bind_eq_ok.mp hok
    obtain ⟨-, hlen, rfl⟩ := get_range_checked_eq_ok.mp hobserved
    dsimp only at hlen hok
    rw [range_front] at hok
    obtain ⟨⟨m₁, index⟩, hfront, hok⟩ := bind_eq_ok.mp hok
    obtain ⟨hdivided₁, rfl⟩ := (match_slice_eq_ok hbefore (by simpa using hlen)).mp hfront
    dsimp only at hok
    split_ifs at hok with hsuffix hoverlap
    · cases hok
    · cases hok
    · obtain ⟨m₂, hvararg, hok⟩ := bind_eq_ok.mp hok
      obtain ⟨suffix, hrange, hok⟩ := bind_eq_ok.mp hok
      obtain ⟨-, -, rfl⟩ := get_range_checked_eq_ok.mp hrange
      rw [range_suffix] at hok
      obtain ⟨⟨m₃, index⟩, hexact, hok⟩ := bind_eq_ok.mp hok
      obtain ⟨hdivided₃, rfl⟩ :=
        (match_slice_eq_ok hafter (by rw [List.length_drop]; omega)).mp hexact
      dsimp only at hok
      split_ifs at hok with hextra
      · obtain ⟨extra, -, hok⟩ := bind_eq_ok.mp hok
        cases hok
      · exact ⟨by omega, m₁, m₂, m₃, hdivided₁, hvararg, hdivided₃, not_lt.mp hextra,
          (Except.ok.inj hok).symm⟩
  · rintro ⟨hlen, m₁, m₂, m₃, hdivided₁, hvararg, hdivided₃, hall, rfl⟩
    refine bind_eq_ok.mpr ⟨_, rfl, bind_eq_ok.mpr
      ⟨_, get_range_checked_eq_ok.mpr ⟨by omega, by dsimp only; omega, rfl⟩, ?_⟩⟩
    dsimp only
    rw [range_front]
    refine bind_eq_ok.mpr ⟨(m₁, before.length),
      (match_slice_eq_ok hbefore (by rw [List.length_take]; omega)).mpr ⟨hdivided₁, rfl⟩, ?_⟩
    dsimp only
    rw [if_neg (by omega), if_neg (by omega)]
    refine bind_eq_ok.mpr ⟨m₂, hvararg, bind_eq_ok.mpr
      ⟨_, get_range_checked_eq_ok.mpr ⟨by omega, le_refl _, rfl⟩, ?_⟩⟩
    rw [range_suffix]
    refine bind_eq_ok.mpr ⟨(m₃, after.length),
      (match_slice_eq_ok hafter (by rw [List.length_drop]; omega)).mpr ⟨hdivided₃, rfl⟩, ?_⟩
    dsimp only
    rw [if_neg (not_lt.mpr hall)]
    rfl

theorem divided_ms_length (h : Divided patterns args ms) : ms.length = args.length := by
  have hlength := congrArg List.length (divided_args h)
  simpa using hlength

/-- Without a vararg pattern, all arguments are matched by the exact ones. -/
theorem resolve_exact (h : Exact patterns) :
    resolve_observed_args_with_patterns program args patterns = .ok ms ↔
      Divided patterns args ms := by
  rw [resolve_parts h (show Exact [] by simp [Exact]) (partition_exact h)]
  constructor
  · rintro ⟨hlen, m₁, m₂, m₃, hdivided, hvararg, hrest, hall, rfl⟩
    obtain rfl := Except.ok.inj hvararg
    obtain ⟨-, rfl⟩ := divided_nil_iff.mp hrest
    have hm := divided_ms_length hdivided
    simp only [List.append_nil, List.length_take] at hm hall ⊢
    rwa [List.take_of_length_le (by omega)] at hdivided
  · intro hdivided
    have hlen := divided_length h hdivided
    refine ⟨by simp [hlen], ms, [], [], ?_, rfl, ?_, ?_, by simp⟩
    · rwa [← hlen, List.take_length]
    · exact divided_nil_iff.mpr ⟨by simp, rfl⟩
    · simp [divided_ms_length hdivided]

/-- With one vararg pattern, it takes what the exact ones leave. -/
theorem resolve_vararg (hbefore : Exact before) (hv : v.is_vararg = true) (hafter : Exact after) :
    resolve_observed_args_with_patterns program args (before ++ v :: after) = .ok ms ↔
      Divided (before ++ v :: after) args ms := by
  rw [resolve_parts hbefore hafter (partition_one hbefore hv hafter), divided_append_iff]
  simp only [match_vararg_eq_ok hv]
  constructor
  · rintro ⟨hlen, m₁, m₂, m₃, hdivided₁, ⟨-, -, hdivided₂⟩, hdivided₃, -, rfl⟩
    refine ⟨args.take before.length, args.drop before.length, m₁, m₂ ++ m₃, ?_, ?_, hdivided₁, ?_⟩
    · rw [List.take_append_drop]
    · rw [List.append_assoc]
    · refine divided_cons_iff.mpr ⟨_, _, m₂, m₃, ?_, rfl, hdivided₂, hdivided₃⟩
      have hrest : args.drop (args.length - after.length) =
          (args.drop before.length).drop (args.length - after.length - before.length) := by
        rw [List.drop_drop]
        congr 1
        omega
      rw [hrest, List.take_append_drop]
  · rintro ⟨args₁, args₂, m₁, m₂, rfl, rfl, hdivided₁, hdivided₂⟩
    obtain ⟨first, args₃, m₂, m₃, rfl, rfl, hdivided₂, hdivided₃⟩ :=
      divided_cons_iff.mp hdivided₂
    have hlen₁ := divided_length hbefore hdivided₁
    have hlen₃ := divided_length hafter hdivided₃
    have hcut : (args₁ ++ (first ++ args₃)).length - after.length = (args₁ ++ first).length := by
      simp only [List.length_append]
      omega
    have hrest : (args₁ ++ (first ++ args₃)).drop (args₁ ++ first).length = args₃ := by
      rw [← List.append_assoc, List.drop_left]
    have hfirst : ((args₁ ++ (first ++ args₃)).drop args₁.length).take
        ((args₁ ++ first).length - args₁.length) = first := by
      rw [List.drop_left, List.length_append, Nat.add_sub_cancel_left, List.take_left]
    rw [hcut, ← hlen₁, hrest, hfirst, List.take_left]
    refine ⟨?_, m₁, m₂, m₃, hdivided₁, ⟨?_, ?_, hdivided₂⟩, hdivided₃, ?_, ?_⟩
    · simp only [List.length_append]
      omega
    · simp only [List.length_append]
      omega
    · simp only [List.length_append]
      omega
    · simp only [List.length_append, divided_ms_length hdivided₁, divided_ms_length hdivided₂,
        divided_ms_length hdivided₃]
      omega
    · rw [List.append_assoc]

theorem resolve_parts_safe {vararg : Option ArgMatcher} (hbefore : Exact before)
    (hafter : Exact after) (hparts : partition_args program patterns =
      .ok ⟨before.length, after.length, before, after, vararg⟩) :
    Safe (resolve_observed_args_with_patterns program args patterns) := by
  unfold resolve_observed_args_with_patterns
  rw [hparts]
  refine (Safe.ok _).bind fun parts heq => ?_
  obtain rfl := Except.ok.inj heq
  refine (get_range_checked_safe _ _ _).bind fun observed hobserved => ?_
  obtain ⟨-, hlen, rfl⟩ := get_range_checked_eq_ok.mp hobserved
  dsimp only at hlen ⊢
  rw [range_front]
  refine (match_exact_safe hbefore (by rw [List.length_take]; omega)).bind fun found _ => ?_
  split_ifs with hsuffix hoverlap
  · exact .err _
  · exact .err _
  · refine (match_vararg_safe _ _ _).bind fun m₂ _ => ?_
    refine (get_range_checked_safe _ _ _).bind fun suffix hsuffix => ?_
    obtain ⟨-, -, rfl⟩ := get_range_checked_eq_ok.mp hsuffix
    rw [range_suffix]
    refine (match_exact_safe hafter (by rw [List.length_drop]; omega)).bind fun last _ => ?_
    split_ifs
    · exact (get_range_checked_safe _ _ _).bind fun _ _ => .err _
    · exact .ok _

theorem exact_iff_filter : Exact patterns ↔ patterns.filter ArgMatcher.is_vararg = [] := by
  simp [Exact, List.filter_eq_nil_iff]

/-- Whether the arguments can be divided is found out without a panic, and a match lists them as
they are divided: every argument once and in order, with its index and the type of its pattern. -/
theorem resolve_observed_args_iff (program : Text) (args : List PositionalArg)
    (patterns : List ArgMatcher) :
    Safe (resolve_observed_args_with_patterns program args patterns) ∧ ∀ ms,
      (resolve_observed_args_with_patterns program args patterns = .ok ms ↔
        (patterns.filter ArgMatcher.is_vararg).length ≤ 1 ∧ Divided patterns args ms) ∧
      (resolve_observed_args_with_patterns program args patterns = .ok ms →
        ms.map (fun m => (m.index, m.value)) = args.map fun arg => (arg.index, arg.value)) := by
  have hlisted : (∀ ms, resolve_observed_args_with_patterns program args patterns = .ok ms ↔
      (patterns.filter ArgMatcher.is_vararg).length ≤ 1 ∧ Divided patterns args ms) →
      ∀ ms, resolve_observed_args_with_patterns program args patterns = .ok ms →
        ms.map (fun m => (m.index, m.value)) = args.map fun arg => (arg.index, arg.value) :=
    fun hiff ms hok => divided_args ((hiff ms).mp hok).2
  suffices h : Safe (resolve_observed_args_with_patterns program args patterns) ∧ ∀ ms,
      resolve_observed_args_with_patterns program args patterns = .ok ms ↔
        (patterns.filter ArgMatcher.is_vararg).length ≤ 1 ∧ Divided patterns args ms from
    ⟨h.1, fun ms => ⟨h.2 ms, hlisted h.2 ms⟩⟩
  rcases first_vararg patterns with hexact | ⟨before, v, after, rfl, hbefore, hv⟩
  · have hnone := exact_iff_filter.mp hexact
    refine ⟨resolve_parts_safe hexact (show Exact [] by simp [Exact]) (partition_exact hexact), ?_⟩
    intro ms
    rw [resolve_exact hexact, hnone]
    simp
  · have hbefore_none := exact_iff_filter.mp hbefore
    rcases first_vararg after with hafter | ⟨middle, w, after, rfl, hmiddle, hw⟩
    · have hafter_none := exact_iff_filter.mp hafter
      refine ⟨resolve_parts_safe hbefore hafter (partition_one hbefore hv hafter), ?_⟩
      intro ms
      rw [resolve_vararg hbefore hv hafter]
      simp [hbefore_none, hafter_none, hv]
    · have herr : resolve_observed_args_with_patterns program args
          (before ++ v :: (middle ++ w :: after)) = err (.MultipleVarargPatterns program v w) := by
        unfold resolve_observed_args_with_patterns
        rw [partition_many hbefore hv hmiddle hw]
        rfl
      rw [herr]
      refine ⟨.err _, fun ms => iff_of_false (by rintro ⟨⟩) ?_⟩
      rintro ⟨hcount, -⟩
      simp [hv, hw] at hcount
      omega

end resolve

end Ecode.execpolicy
