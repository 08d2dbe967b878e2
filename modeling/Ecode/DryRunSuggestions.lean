-- When the dry run that is proposed for a command is one: the proposed tokens are analysed again
-- (core/src/dry_run_guard.rs).
import Ecode.DryRunGuard
import Ecode.FirstEdit
import Ecode.TextLines

open Ecode.edits

namespace Ecode.dry_run_guard

/-! ## Names of programs -/

/-- A text that is its own basename. -/
def Plain (name : Text) : Prop :=
  '/' ∉ name ∧ '"' ∉ name ∧ '\'' ∉ name ∧ name ≠ [] ∧ name ≠ ".".toList ∧ name ≠ "..".toList

instance (name : Text) : Decidable (Plain name) := inferInstanceAs (Decidable (_ ∧ _))

theorem trim_matches_of_not_mem {c : Char} {t : Text} (h : c ∉ t) : Text.trim_matches c t = t := by
  have hfront : t.dropWhile (· == c) = t := by
    apply List.dropWhile_eq_self_iff.mpr
    intro hlen
    simpa using ne_of_mem_of_not_mem (List.getElem_mem hlen) h
  have hback : t.reverse.dropWhile (· == c) = t.reverse := by
    apply List.dropWhile_eq_self_iff.mpr
    intro hlen
    have hmem : t.reverse[0] ∈ t := List.mem_reverse.mp (List.getElem_mem hlen)
    simpa using ne_of_mem_of_not_mem hmem h
  unfold Text.trim_matches
  rw [hfront, hback, List.reverse_reverse]

theorem command_basename_plain {t : Text} (h : Plain t) :
    command_basename t = Text.to_ascii_lowercase t := by
  obtain ⟨hslash, hdouble, hsingle, hne, hdot, hdots⟩ := h
  have hpath : Path.of_text t = [.Normal t] := by
    unfold Path.of_text
    rw [Text.split_last hslash]
    dsimp only
    rw [if_neg (fun hboth => hne hboth.1), if_neg hdot, List.flatMap_singleton, Path.piece,
      if_neg (not_or.mpr ⟨hne, hdot⟩), if_neg hdots]
  unfold command_basename
  dsimp only
  rw [trim_matches_of_not_mem hdouble, trim_matches_of_not_mem hsingle, hpath]
  rfl

theorem plain_of_lowercase {t : Text} (h : Plain (Text.to_ascii_lowercase t)) : Plain t := by
  obtain ⟨hslash, hdouble, hsingle, hne, hdot, hdots⟩ := h
  refine ⟨?_, ?_, ?_, ?_, ?_, ?_⟩
  · exact fun hmem => hslash (Text.mem_to_ascii_lowercase (by decide) hmem)
  · exact fun hmem => hdouble (Text.mem_to_ascii_lowercase (by decide) hmem)
  · exact fun hmem => hsingle (Text.mem_to_ascii_lowercase (by decide) hmem)
  · rintro rfl
    exact hne rfl
  · rintro rfl
    exact hdot rfl
  · rintro rfl
    exact hdots rfl

/-- A token that is a name but for its case has it as its basename. -/
theorem basename_of_equal {t name : Text} (h : Text.eq_ignore_ascii_case t name = true)
    (hname : Plain name) (hlower : Text.to_ascii_lowercase name = name) :
    command_basename t = name := by
  have heq : Text.to_ascii_lowercase t = name := by
    rw [← hlower]
    exact eq_of_beq h
  rw [command_basename_plain (plain_of_lowercase (heq ▸ hname)), heq]

/-- A token that is a flag but for its case is a flag. -/
theorem is_flag_of_equal {t name : Text} (h : Text.eq_ignore_ascii_case t name = true)
    (hname : (Text.to_ascii_lowercase name).head? = some '-') : is_flag t = true := by
  have heq : Text.to_ascii_lowercase t = Text.to_ascii_lowercase name := eq_of_beq h
  rcases t with _ | ⟨c, t⟩
  · rw [← heq] at hname
    cases hname
  · rw [← heq] at hname
    obtain rfl := Text.hyphen_of_lowercase (Option.some.inj hname)
    rfl

/-! ## The wrappers of a command -/

def leading_flags : List Text → List Text
  | [] => []
  | token :: tokens =>
    if is_separator token then [token]
    else if is_flag token then token :: leading_flags tokens
    else []

theorem leading_flags_append (tokens : List Text) :
    leading_flags tokens ++ skip_leading_flags tokens = tokens := by
  induction tokens with
  | nil => rfl
  | cons token tokens ih =>
    unfold leading_flags skip_leading_flags
    split_ifs <;> simp [ih]

/-- Whether the first token that `p` holds of is one of the flags which the wrappers of a command
skip. -/
def skips_first (p : Text → Bool) (tokens : List Text) : Bool :=
  match h : split_exec_wrapper tokens with
  | none => false
  | some (command, rest) =>
    have : (skip_leading_flags rest).length < tokens.length := peeled_length h
    if command.any p then false
    else (leading_flags rest).any p || skips_first p (skip_leading_flags rest)
termination_by tokens.length

/-- The tokens that the wrappers of a command take. -/
def exec_wrapper (tokens : List Text) : List Text :=
  match h : split_exec_wrapper tokens with
  | none => []
  | some (command, rest) =>
    have : (skip_leading_flags rest).length < tokens.length := peeled_length h
    command ++ leading_flags rest ++ exec_wrapper (skip_leading_flags rest)
termination_by tokens.length

section equations

variable {tokens command rest : List Text}

theorem peel_none (h : split_exec_wrapper tokens = none) : peel_exec_wrappers tokens = tokens := by
  rw [peel_exec_wrappers]
  split
  · rfl
  · simp_all

theorem peel_some (h : split_exec_wrapper tokens = some (command, rest)) :
    peel_exec_wrappers tokens = peel_exec_wrappers (skip_leading_flags rest) := by
  rw [peel_exec_wrappers]
  split <;> simp_all

theorem skips_first_none {p : Text → Bool} (h : split_exec_wrapper tokens = none) :
    skips_first p tokens = false := by
  rw [skips_first]
  split
  · rfl
  · simp_all

theorem skips_first_some {p : Text → Bool} (h : split_exec_wrapper tokens = some (command, rest)) :
    skips_first p tokens =
      if command.any p then false
      else (leading_flags rest).any p || skips_first p (skip_leading_flags rest) := by
  rw [skips_first]
  split <;> simp_all

theorem exec_wrapper_none (h : split_exec_wrapper tokens = none) : exec_wrapper tokens = [] := by
  rw [exec_wrapper]
  split
  · rfl
  · simp_all

theorem exec_wrapper_some (h : split_exec_wrapper tokens = some (command, rest)) :
    exec_wrapper tokens =
      command ++ leading_flags rest ++ exec_wrapper (skip_leading_flags rest) := by
  rw [exec_wrapper]
  split <;> simp_all

end equations

theorem exec_wrapper_append (tokens : List Text) :
    exec_wrapper tokens ++ peel_exec_wrappers tokens = tokens := by
  fun_induction peel_exec_wrappers tokens with
  | case1 tokens h => rw [exec_wrapper_none h, List.nil_append]
  | case2 tokens command rest h _ ih =>
    rw [exec_wrapper_some h, List.append_assoc, ih, List.append_assoc, leading_flags_append]
    exact (split_exec_wrapper_append h).1.symm

/-- What is peeled has no wrapper of its own. -/
theorem split_peeled (tokens : List Text) :
    split_exec_wrapper (peel_exec_wrappers tokens) = none := by
  fun_induction peel_exec_wrappers tokens with
  | case1 tokens h => exact h
  | case2 tokens command rest h _ ih => exact ih

/-! ## Names with a meaning -/

def WRAPPERS : List Text :=
  ["npx".toList, "bunx".toList, "pnpm".toList, "yarn".toList]

/-- The names that the analysis looks for. -/
def NAMES : List Text :=
  ["cargo".toList, "rustfmt".toList, "npm".toList, "exec".toList, "dlx".toList] ++ WRAPPERS ++
    TOOLS.map Tool.name

/-- A token that no part of the analysis takes for a program or a script. -/
def Inert (token : Text) : Prop :=
  command_basename token ∉ NAMES ∧ script_key .Npm token = none

instance (token : Text) : Decidable (Inert token) := inferInstanceAs (Decidable (_ ∧ _))

theorem script_key_none_iff {manager manager' : PackageManager} {script : Text} :
    script_key manager script = none ↔ script_key manager' script = none := by
  unfold script_key
  split_ifs <;> simp

/-- The program of a command with a wrapper is one of the wrappers. -/
theorem split_exec_wrapper_cases {tokens command rest : List Text}
    (h : split_exec_wrapper tokens = some (command, rest)) :
    (∃ first, command = [first] ∧ tokens = first :: rest ∧
      (command_basename first = "npx".toList ∨ command_basename first = "bunx".toList)) ∨
    ∃ first second, command = [first, second] ∧ tokens = first :: second :: rest ∧
      ((command_basename first = "pnpm".toList ∧
          (second = "exec".toList ∨ second = "dlx".toList)) ∨
        (command_basename first = "yarn".toList ∧
          (command_basename second = "exec".toList ∨ command_basename second = "dlx".toList))) := by
  unfold split_exec_wrapper at h
  split at h
  · cases h
  · dsimp only at h
    split_ifs at h with hsingle
    · obtain ⟨rfl, rfl⟩ := Prod.mk.inj (Option.some.inj h)
      exact .inl ⟨_, rfl, rfl, hsingle⟩
    · split at h
      · cases h
      · split_ifs at h with hruns
        obtain ⟨rfl, rfl⟩ := Prod.mk.inj (Option.some.inj h)
        exact .inr ⟨_, _, rfl, rfl, hruns⟩

/-- A program with another name wraps nothing. -/
theorem split_of_not_wrapper {first : Text} (h : command_basename first ∉ WRAPPERS)
    (rest : List Text) : split_exec_wrapper (first :: rest) = none := by
  rcases hsplit : split_exec_wrapper (first :: rest) with _ | ⟨command, after⟩
  · rfl
  · exfalso
    apply h
    rcases split_exec_wrapper_cases hsplit with
      ⟨found, -, hcons, hbase⟩ | ⟨found, second, -, hcons, hruns⟩
    · obtain ⟨rfl, -⟩ := List.cons.inj hcons
      rcases hbase with hbase | hbase <;> rw [hbase] <;> decide
    · obtain ⟨rfl, -⟩ := List.cons.inj hcons
      rcases hruns with ⟨hbase, -⟩ | ⟨hbase, -⟩ <;> rw [hbase] <;> decide

theorem named_tool_name {first : Text} {rest : List Text} {tool : Tool}
    (h : named_tool (first :: rest) = some tool) :
    tool ∈ TOOLS ∧ command_basename first = tool.name := by
  unfold named_tool at h
  have hname := List.find?_some h
  exact ⟨List.mem_of_find?_eq_some h, (eq_of_beq hname).symm⟩

theorem tool_not_wrapper : ∀ tool ∈ TOOLS, tool.name ∉ WRAPPERS := by decide

theorem named_tool_inert {token : Text} (h : Inert token) (rest : List Text) :
    named_tool (token :: rest) = none := by
  rcases hname : named_tool (token :: rest) with _ | tool
  · rfl
  · obtain ⟨htool, hbase⟩ := named_tool_name hname
    refine absurd ?_ h.1
    rw [hbase]
    exact List.mem_append_right _ (List.mem_map_of_mem htool)

theorem wrapper_mem_names {name : Text} (h : name ∈ WRAPPERS) : name ∈ NAMES :=
  List.mem_append_left _ (List.mem_append_right _ h)

theorem split_inert {token : Text} (h : Inert token) (rest : List Text) :
    split_exec_wrapper (token :: rest) = none :=
  split_of_not_wrapper (fun hmem => h.1 (wrapper_mem_names hmem)) rest

/-! ## Edits of flags -/

/-- An edit that takes a flag away and puts flags in its place, where they are skipped like it. -/
structure FlagEdit (p : Text → Bool) (g : Text → List Text) : Prop where
  flag : ∀ t, p t = true → is_flag t = true
  keeps : ∀ t ts, p t = true →
    skip_leading_flags (g t ++ ts) = skip_leading_flags (t :: ts)
  inert : ∀ t, p t = true → ∃ x xs, g t = x :: xs ∧ Inert x

section edit

variable {p : Text → Bool} {g : Text → List Text} {e : List Text}

theorem skip_edit (h : FlagEdit p g) {tokens : List Text}
    (hne : skip_leading_flags tokens ≠ []) :
    skip_leading_flags (edit_first p g e tokens) =
      if (leading_flags tokens).any p then skip_leading_flags tokens
      else edit_first p g e (skip_leading_flags tokens) := by
  induction tokens with
  | nil => exact absurd rfl hne
  | cons t ts ih =>
    rcases hp : p t with _ | _
    · rw [edit_first_neg hp]
      rcases hsep : is_separator t with _ | _
      · rcases hflag : is_flag t with _ | _
        · simp [skip_leading_flags, leading_flags, hsep, hflag, edit_first_neg hp]
        · have hrest : skip_leading_flags ts ≠ [] := by
            simpa [skip_leading_flags, hsep, hflag] using hne
          simpa [skip_leading_flags, leading_flags, hsep, hflag, hp] using ih hrest
      · simp [skip_leading_flags, leading_flags, hsep, hp]
    · have hany : (leading_flags (t :: ts)).any p = true := by
        unfold leading_flags
        split_ifs
        · simp [hp]
        · simp [hp]
        · exact absurd (h.flag t hp) ‹_›
      rw [edit_first_pos hp, if_pos hany]
      exact h.keeps t ts hp

/-- An edit behind a wrapper leaves the wrapper. -/
theorem split_edit {tokens command rest : List Text}
    (h : split_exec_wrapper tokens = some (command, rest)) (hp : command.any p = false) :
    split_exec_wrapper (edit_first p g e tokens) = some (command, edit_first p g e rest) := by
  have hsame : edit_first p g e tokens = command ++ edit_first p g e rest := by
    rw [(split_exec_wrapper_append h).1]
    apply edit_first_append
    simpa using hp
  rw [hsame]
  rcases split_exec_wrapper_cases h with
    ⟨first, rfl, -, hbase⟩ | ⟨first, second, rfl, -, hruns⟩
  · simp only [List.singleton_append, split_exec_wrapper, if_pos hbase]
  · have hnot : ¬ (command_basename first = "npx".toList ∨
        command_basename first = "bunx".toList) := by
      rcases hruns with ⟨hbase, -⟩ | ⟨hbase, -⟩ <;> rw [hbase] <;> decide
    simp only [List.cons_append, List.nil_append, split_exec_wrapper, if_neg hnot, if_pos hruns]

/-- An edit of a wrapper itself leaves a command that names no tool. -/
theorem edit_wrapper_unnamed (h : FlagEdit p g) {tokens command rest : List Text}
    (hsplit : split_exec_wrapper tokens = some (command, rest)) (hp : command.any p = true) :
    named_tool (peel_exec_wrappers (edit_first p g e tokens)) = none := by
  have hhead : ∀ first rest', p first = true →
      named_tool (peel_exec_wrappers (edit_first p g e (first :: rest'))) = none := by
    intro first rest' hfirst
    obtain ⟨x, xs, hg, hinert⟩ := h.inert first hfirst
    rw [edit_first_pos hfirst, hg, List.cons_append, peel_none (split_inert hinert _)]
    exact named_tool_inert hinert _
  rcases split_exec_wrapper_cases hsplit with
    ⟨first, rfl, rfl, -⟩ | ⟨first, second, rfl, rfl, hruns⟩
  · exact hhead first rest (by simpa using hp)
  · rcases hfirst : p first with _ | _
    · have hsecond : p second = true := by simpa [hfirst] using hp
      obtain ⟨x, xs, hg, hinert⟩ := h.inert second hsecond
      rw [edit_first_neg hfirst, edit_first_pos hsecond, hg, List.cons_append]
      have hname : command_basename first ∈ WRAPPERS ∧ command_basename first ≠ "npx".toList ∧
          command_basename first ≠ "bunx".toList := by
        rcases hruns with ⟨hbase, -⟩ | ⟨hbase, -⟩ <;> rw [hbase] <;> decide
      have hx : x ≠ "exec".toList ∧ x ≠ "dlx".toList ∧ command_basename x ≠ "exec".toList ∧
          command_basename x ≠ "dlx".toList := by
        refine ⟨?_, ?_, ?_, ?_⟩
        · rintro rfl
          exact hinert.1 (by decide)
        · rintro rfl
          exact hinert.1 (by decide)
        · intro hbase
          exact hinert.1 (hbase ▸ (by decide : "exec".toList ∈ NAMES))
        · intro hbase
          exact hinert.1 (hbase ▸ (by decide : "dlx".toList ∈ NAMES))
      have hnone : split_exec_wrapper (first :: x :: (xs ++ rest)) = none := by
        simp only [split_exec_wrapper, if_neg (not_or.mpr hname.2)]
        rw [if_neg]
        rintro (⟨-, hexec | hdlx⟩ | ⟨-, hexec | hdlx⟩)
        · exact hx.1 hexec
        · exact hx.2.1 hdlx
        · exact hx.2.2.1 hexec
        · exact hx.2.2.2 hdlx
      rw [peel_none hnone]
      rcases htool : named_tool (first :: x :: (xs ++ rest)) with _ | tool
      · rfl
      · obtain ⟨hmem, hbase⟩ := named_tool_name htool
        exact absurd (hbase ▸ hname.1) (tool_not_wrapper tool hmem)
    · exact hhead first _ hfirst

/-- An edit of a skipped flag leaves the command that is run; every other edit is one of this
command, unless it leaves no command that names a tool. -/
theorem peel_edit (h : FlagEdit p g) {tokens : List Text} {tool : Tool}
    (htool : named_tool (peel_exec_wrappers tokens) = some tool) :
    (skips_first p tokens = true →
      peel_exec_wrappers (edit_first p g e tokens) = peel_exec_wrappers tokens) ∧
    (skips_first p tokens = false →
      peel_exec_wrappers (edit_first p g e tokens) = edit_first p g e (peel_exec_wrappers tokens) ∨
        named_tool (peel_exec_wrappers (edit_first p g e tokens)) = none) := by
  fun_induction peel_exec_wrappers tokens with
  | case1 tokens hsplit =>
    rw [skips_first_none hsplit]
    refine ⟨by simp, fun _ => .inl (peel_none ?_)⟩
    rcases tokens with _ | ⟨first, rest⟩
    · cases htool
    · rcases hp : p first with _ | _
      · obtain ⟨hmem, hbase⟩ := named_tool_name htool
        rw [edit_first_neg hp]
        exact split_of_not_wrapper (hbase ▸ tool_not_wrapper tool hmem) _
      · obtain ⟨x, xs, hg, hinert⟩ := h.inert first hp
        rw [edit_first_pos hp, hg]
        exact split_inert hinert _
  | case2 tokens command rest hsplit _ ih =>
    rw [skips_first_some hsplit]
    rcases hcommand : command.any p with _ | _
    · have hne : skip_leading_flags rest ≠ [] := by
        intro hnil
        rw [hnil, peel_none rfl] at htool
        cases htool
      rw [peel_some (split_edit hsplit hcommand), skip_edit h hne]
      rcases hskipped : (leading_flags rest).any p with _ | _
      · simpa using ih htool
      · simp
    · refine ⟨by simp, fun _ => .inr (edit_wrapper_unnamed h hsplit hcommand)⟩

end edit

/-! ## Commands that only a direct formatter can be -/

/-- The first tokens name neither a program that is analysed before the formatters nor a script of
a package manager. -/
structure Direct (first : Text) (rest : List Text) : Prop where
  program : command_basename first ∉ ["cargo".toList, "rustfmt".toList, "npm".toList]
  script : ∀ manager second, Text.eq_ignore_ascii_case first manager.label = true →
    rest.head? = some second → runs_program second = true ∨ script_key manager second = none

theorem label_plain (manager : PackageManager) : Plain manager.label ∧
    Text.to_ascii_lowercase manager.label = manager.label := by
  cases manager <;> decide

theorem basename_of_label {first : Text} {manager : PackageManager}
    (h : Text.eq_ignore_ascii_case first manager.label = true) :
    command_basename first = manager.label :=
  basename_of_equal h (label_plain manager).1 (label_plain manager).2

/-- The script of a package manager other than npm is the second token. -/
theorem analyze_package_manager_direct {first : Text} {rest : List Text} (h : Direct first rest)
    (manager : PackageManager) :
    analyze_package_manager (first :: rest) manager = none ∨
      analyze_package_manager (first :: rest) manager =
        analyze_direct_formatter (first :: rest) := by
  unfold analyze_package_manager
  dsimp only
  split_ifs with hlabel
  · have hlocate : locate_package_script (first :: rest) manager =
        rest.head?.map fun script => (1, script) := by
      cases manager with
      | Npm => exact absurd (basename_of_label hlabel ▸ h.program) (by decide)
      | _ => cases rest <;> rfl
    rw [hlocate]
    rcases hsecond : rest.head? with _ | second
    · exact .inl rfl
    · simp only [Option.map_some]
      split_ifs with hruns
      · exact .inr rfl
      · rw [(h.script manager second hlabel hsecond).resolve_left hruns]
        exact .inl rfl
  · exact .inl rfl

theorem analyze_cargo_none {first : Text} (h : command_basename first ≠ "cargo".toList)
    (rest : List Text) : analyze_cargo (first :: rest) = none :=
  if_neg fun hname => h (basename_of_equal hname (by decide) (by decide))

theorem analyze_rustfmt_none {first : Text} (h : command_basename first ≠ "rustfmt".toList)
    (rest : List Text) : analyze_rustfmt (first :: rest) = none :=
  if_neg fun hname => h (basename_of_equal hname (by decide) (by decide))

theorem analyze_tokens_direct {first : Text} {rest : List Text} (h : Direct first rest) :
    analyze_tokens (first :: rest) = analyze_direct_formatter (first :: rest) := by
  have hcargo : analyze_cargo (first :: rest) = none :=
    analyze_cargo_none (fun hbase => absurd (hbase ▸ h.program) (by decide)) rest
  have hrustfmt : analyze_rustfmt (first :: rest) = none :=
    analyze_rustfmt_none (fun hbase => absurd (hbase ▸ h.program) (by decide)) rest
  have hnpm := analyze_package_manager_direct h .Npm
  have hpnpm := analyze_package_manager_direct h .Pnpm
  have hyarn := analyze_package_manager_direct h .Yarn
  unfold analyze_tokens
  rw [hcargo, hrustfmt]
  rcases hdirect : analyze_direct_formatter (first :: rest) with _ | a <;>
    rw [hdirect] at hnpm hpnpm hyarn <;>
    rcases hnpm with hnpm | hnpm <;> rcases hpnpm with hpnpm | hpnpm <;>
    rcases hyarn with hyarn | hyarn <;> rw [hnpm, hpnpm, hyarn] <;> rfl

/-- The program of a command that a tool is named by is a wrapper or the tool. -/
theorem program_of_tool {first : Text} {rest : List Text} {tool : Tool}
    (h : named_tool (peel_exec_wrappers (first :: rest)) = some tool) :
    command_basename first ∈ WRAPPERS ∨ command_basename first ∈ TOOLS.map Tool.name := by
  rcases hsplit : split_exec_wrapper (first :: rest) with _ | ⟨command, after⟩
  · rw [peel_none hsplit] at h
    obtain ⟨hmem, hbase⟩ := named_tool_name h
    exact .inr (hbase ▸ List.mem_map_of_mem hmem)
  · refine .inl ?_
    by_contra hnot
    rw [split_of_not_wrapper hnot] at hsplit
    cases hsplit

theorem program_not_analysed {first : Text} {rest : List Text} {tool : Tool}
    (h : named_tool (peel_exec_wrappers (first :: rest)) = some tool) :
    command_basename first ∉ ["cargo".toList, "rustfmt".toList, "npm".toList] := by
  have hnames : ∀ name ∈ WRAPPERS ++ TOOLS.map Tool.name,
      name ∉ ["cargo".toList, "rustfmt".toList, "npm".toList] := by decide
  exact hnames _ (List.mem_append.mpr (program_of_tool h))

def is_script_key : DryRunGuardKey → Bool
  | .PackageLint _ | .PackageFormat _ => true
  | _ => false

theorem tool_key_not_script : ∀ tool ∈ TOOLS, is_script_key tool.key = false := by decide

theorem script_key_is_script_key {manager : PackageManager} {script : Text} {key : DryRunGuardKey}
    (h : script_key manager script = some key) : is_script_key key = true := by
  unfold script_key at h
  split_ifs at h
  · obtain rfl := Option.some.inj h
    rfl
  · obtain rfl := Option.some.inj h
    rfl

/-- A program that has the name of one package manager is analysed by no other. -/
theorem analyze_package_manager_other {first : Text} {rest : List Text} {manager : PackageManager}
    (h : Text.eq_ignore_ascii_case first manager.label = true) (manager' : PackageManager)
    (hne : manager ≠ manager') :
    analyze_package_manager (first :: rest) manager' = none := by
  refine if_neg fun h' => ?_
  have hlabels := (basename_of_label h).symm.trans (basename_of_label h')
  revert hne hlabels
  cases manager <;> cases manager' <;> decide

/-- A script by its name. -/
theorem analyze_script {first second : Text} (rest : List Text) {manager : PackageManager}
    (h : Text.eq_ignore_ascii_case first manager.label = true) (hnpm : manager ≠ .Npm)
    (hruns : ¬ runs_program second = true) {key : DryRunGuardKey}
    (hkey : script_key manager second = some key) :
    ∃ a, analyze_package_manager (first :: second :: rest) manager = some a ∧ a.key = key := by
  have hlocate : locate_package_script (first :: second :: rest) manager = some (1, second) := by
    cases manager with
    | Npm => exact absurd rfl hnpm
    | _ => rfl
  unfold analyze_package_manager
  dsimp only
  rw [if_pos h, hlocate]
  dsimp only
  rw [if_neg hruns, hkey]
  exact ⟨_, rfl, rfl⟩

/-- A program that has the name of a package manager is analysed by this one. -/
theorem analyze_tokens_manager {first : Text} {manager : PackageManager}
    (h : Text.eq_ignore_ascii_case first manager.label = true) (rest : List Text) :
    analyze_tokens (first :: rest) =
      (analyze_package_manager (first :: rest) manager).or
        (analyze_direct_formatter (first :: rest)) := by
  have hbase := basename_of_label h
  have hcargo : command_basename first ≠ "cargo".toList := by
    rw [hbase]
    cases manager <;> decide
  have hrustfmt : command_basename first ≠ "rustfmt".toList := by
    rw [hbase]
    cases manager <;> decide
  unfold analyze_tokens
  rw [analyze_cargo_none hcargo, analyze_rustfmt_none hrustfmt]
  cases manager with
  | Npm =>
    rw [analyze_package_manager_other h .Pnpm (by decide),
      analyze_package_manager_other h .Yarn (by decide)]
    simp
  | Pnpm =>
    rw [analyze_package_manager_other h .Npm (by decide),
      analyze_package_manager_other h .Yarn (by decide)]
    simp
  | Yarn =>
    rw [analyze_package_manager_other h .Npm (by decide),
      analyze_package_manager_other h .Pnpm (by decide)]
    simp

/-- A script of pnpm or yarn is analysed as one. -/
theorem analyze_tokens_script {first second : Text} (rest : List Text) {manager : PackageManager}
    (h : Text.eq_ignore_ascii_case first manager.label = true) (hnpm : manager ≠ .Npm)
    (hruns : ¬ runs_program second = true) {key : DryRunGuardKey}
    (hkey : script_key manager second = some key) :
    ∃ a, analyze_tokens (first :: second :: rest) = some a ∧ a.key = key := by
  obtain ⟨a, ha, hakey⟩ := analyze_script rest h hnpm hruns hkey
  refine ⟨a, ?_, hakey⟩
  rw [analyze_tokens_manager h, ha]
  rfl

/-- A command whose analysis has the key of the tool that it names is a direct one. -/
theorem direct_of_key {first : Text} {rest : List Text} {tool : Tool} {a : InternalAnalysis}
    (htool : named_tool (peel_exec_wrappers (first :: rest)) = some tool) (hmem : tool ∈ TOOLS)
    (h : analyze_tokens (first :: rest) = some a) (hkey : a.key = tool.key) :
    Direct first rest where
  program := program_not_analysed htool
  script := by
    intro manager second hlabel hsecond
    by_contra hnot
    rw [not_or] at hnot
    obtain ⟨key, hsome⟩ := Option.ne_none_iff_exists'.mp hnot.2
    obtain ⟨rest', rfl⟩ : ∃ rest', rest = second :: rest' := by
      cases rest with
      | nil => cases hsecond
      | cons found rest' =>
        obtain rfl := Option.some.inj hsecond
        exact ⟨rest', rfl⟩
    have hnpm : manager ≠ .Npm := by
      rintro rfl
      exact absurd (basename_of_label hlabel ▸ program_not_analysed htool) (by decide)
    obtain ⟨b, hb, hbkey⟩ := analyze_tokens_script rest' hlabel hnpm hnot.1 hsome
    obtain rfl := Option.some.inj (hb.symm.trans h)
    have hscript := script_key_is_script_key hsome
    rw [← hbkey, hkey, tool_key_not_script tool hmem] at hscript
    cases hscript

/-- An inert program leaves nothing but a direct command. -/
theorem direct_of_inert {token : Text} (h : Inert token) (rest : List Text) :
    Direct token rest where
  program := by
    have hnames : ∀ name ∈ ["cargo".toList, "rustfmt".toList, "npm".toList], name ∈ NAMES := by
      decide
    exact fun hmem => h.1 (hnames _ hmem)
  script := by
    intro manager second hlabel _
    exfalso
    apply h.1
    rw [basename_of_label hlabel]
    cases manager <;> decide

section edit

variable {p : Text → Bool} {g : Text → List Text} {e : List Text}

/-- An edit of a command that names a tool leaves it a direct one. -/
theorem direct_edit (h : FlagEdit p g) {first : Text} {rest : List Text} {tool : Tool}
    (htool : named_tool (peel_exec_wrappers (first :: rest)) = some tool)
    (hdirect : Direct first rest) :
    ∃ first' rest', edit_first p g e (first :: rest) = first' :: rest' ∧ Direct first' rest' := by
  rcases hfirst : p first with _ | _
  · refine ⟨first, edit_first p g e rest, edit_first_neg hfirst rest, hdirect.program, ?_⟩
    intro manager second hlabel hsecond
    cases rest with
    | nil =>
      -- a package manager alone names no tool
      exfalso
      have hnone : split_exec_wrapper [first] = none := by
        have hbase := basename_of_label hlabel
        simp only [split_exec_wrapper, hbase]
        cases manager <;> rfl
      rw [peel_none hnone] at htool
      obtain ⟨hmem, hname⟩ := named_tool_name htool
      have hlabels : ∀ m : PackageManager, m.label ∉ TOOLS.map Tool.name := by
        intro m
        cases m <;> decide
      exact hlabels manager (basename_of_label hlabel ▸ hname ▸ List.mem_map_of_mem hmem)
    | cons found rest =>
      rcases hfound : p found with _ | _
      · rw [edit_first_neg hfound] at hsecond
        exact hdirect.script manager second hlabel hsecond
      · obtain ⟨x, xs, hg, hinert⟩ := h.inert found hfound
        rw [edit_first_pos hfound, hg] at hsecond
        obtain rfl := Option.some.inj hsecond
        exact .inr (script_key_none_iff.mp hinert.2)
  · obtain ⟨x, xs, hg, hinert⟩ := h.inert first hfirst
    exact ⟨x, xs ++ rest, by rw [edit_first_pos hfirst, hg]; rfl, direct_of_inert hinert _⟩

end edit

/-! ## The proposals for the tools -/

/-- A proposal: the tokens as they are where one of them is a `q`, and else one edit. -/
structure Proposal where
  q : Text → Bool
  p : Text → Bool
  g : Text → List Text
  e : List Text

def Proposal.tokens (proposal : Proposal) (tokens : List Text) : List Text :=
  if tokens.any proposal.q then tokens else edit_first proposal.p proposal.g proposal.e tokens

/-- The flag comes at the end, unless it is there. -/
def append_flag (flag : String) : Proposal :=
  ⟨fun t => equal_ignore_case t flag, fun _ => false, fun _ => [], [flag.toList]⟩

def proposal : DryRunGuardKey → Proposal
  | .EslintFix =>
    ⟨eslint.dry, is_separator, fun t => ["--fix-dry-run".toList, t], ["--fix-dry-run".toList]⟩
  | .PrettierWrite =>
    ⟨fun t => equal_ignore_case t "--check" || equal_ignore_case t "--list-different",
      is_write_flag, fun _ => ["--check".toList], ["--check".toList]⟩
  | .Isort => append_flag "--check-only"
  | .Gofmt => ⟨fun _ => false, is_gofmt_write_flag, fun _ => ["-d".toList], ["-d".toList]⟩
  | .DartFormat => append_flag "--dry-run"
  | .SwiftFormat => ⟨swiftformat.dry, fun _ => false, fun _ => [], ["--lint".toList]⟩
  | _ => append_flag "--check"

theorem append_flag_tokens (flag : String) (tokens : List Text) :
    (append_flag flag).tokens tokens = suggest_append_flag tokens flag := by
  unfold Proposal.tokens suggest_append_flag
  congr 1
  exact edit_first_none fun _ _ => rfl

/-- The proposed tokens of a tool are those of its proposal. -/
theorem suggested_tokens_eq {tool : Tool} (h : tool ∈ TOOLS) (tokens : List Text) :
    suggested_tokens tokens tool.key = (proposal tool.key).tokens tokens := by
  fin_cases h
  · exact congrArg (ite _ tokens) (insertIdx_eq_edit_first _ tokens)
  · exact congrArg (ite _ tokens) (set_eq_edit_first _ tokens)
  · exact (append_flag_tokens _ tokens).symm
  · exact (append_flag_tokens _ tokens).symm
  · exact (append_flag_tokens _ tokens).symm
  · refine (set_eq_edit_first _ tokens).trans ?_
    exact (if_neg (by simp [proposal, gofmt])).symm
  · exact (append_flag_tokens _ tokens).symm
  · exact (append_flag_tokens _ tokens).symm
  · exact congrArg (ite _ tokens) (edit_first_none fun _ _ => rfl).symm

/-- What a proposal for a tool is to be: its edit is one of flags and gives a dry run, and a token
that stops it is a flag of a dry run. -/
structure Sound (tool : Tool) (proposal : Proposal) : Prop where
  edit : FlagEdit proposal.p proposal.g
  fixes : ∀ t, proposal.p t = true → (proposal.g t).any tool.dry = true
  appends : proposal.e.any tool.dry = true
  q_dry : ∀ t, proposal.q t = true → tool.dry t = true
  unnamed : (∀ t, proposal.q t = false) ∨
    ∀ t, (proposal.q t || proposal.p t) = true → command_basename t ∉ NAMES

/-- A flag is no name. -/
theorem flag_unnamed {t : Text} {flag : String} (h : equal_ignore_case t flag = true)
    (hflag : Plain flag.toList ∧ Text.to_ascii_lowercase flag.toList = flag.toList ∧
      flag.toList ∉ NAMES) : command_basename t ∉ NAMES := by
  rw [basename_of_equal h hflag.1 hflag.2.1]
  exact hflag.2.2

theorem flagEdit_nothing {g : Text → List Text} : FlagEdit (fun _ => false) g :=
  ⟨by simp, by simp, by simp⟩

theorem append_flag_sound {tool : Tool} {flag : String}
    (hflag : Plain flag.toList ∧ Text.to_ascii_lowercase flag.toList = flag.toList ∧
      flag.toList ∉ NAMES)
    (hdry : ∀ t, equal_ignore_case t flag = true → tool.dry t = true) :
    Sound tool (append_flag flag) where
  edit := flagEdit_nothing
  fixes := by simp [append_flag]
  appends := by
    have hself : equal_ignore_case flag.toList flag = true := beq_self_eq_true _
    simp [append_flag, hdry _ hself]
  q_dry := hdry
  unnamed := by
    refine .inr fun t ht => ?_
    simp only [append_flag, Bool.or_false] at ht
    exact flag_unnamed ht hflag

theorem inert_check : Inert "--check".toList := by decide +kernel

theorem inert_diff : Inert "-d".toList := by decide +kernel

theorem inert_fix_dry_run : Inert "--fix-dry-run".toList := by decide +kernel

theorem skip_flag {t : Text} (hflag : is_flag t = true) (hsep : is_separator t = false)
    (ts : List Text) : skip_leading_flags (t :: ts) = skip_leading_flags ts := by
  simp [skip_leading_flags, hflag, hsep]

/-- A flag in the place of a flag is skipped like it. -/
theorem flagEdit_replace {p : Text → Bool} {x : Text} (hx : Inert x)
    (hflag : is_flag x = true ∧ is_separator x = false)
    (hp : ∀ t, p t = true → is_flag t = true ∧ is_separator t = false) :
    FlagEdit p fun _ => [x] where
  flag := fun t ht => (hp t ht).1
  keeps := by
    intro t ts ht
    obtain ⟨htflag, htsep⟩ := hp t ht
    rw [List.singleton_append, skip_flag hflag.1 hflag.2, skip_flag htflag htsep]
  inert := fun _ _ => ⟨x, [], rfl, hx⟩

theorem eslint_sound : Sound eslint (proposal .EslintFix) where
  edit := {
    flag := by
      intro t ht
      obtain rfl := eq_of_beq ht
      rfl
    keeps := fun t ts _ => skip_flag rfl (by decide) (t :: ts)
    inert := fun t _ => ⟨_, [t], rfl, inert_fix_dry_run⟩ }
  fixes := by
    intro t _
    rfl
  appends := rfl
  q_dry := fun _ ht => ht
  unnamed := by
    refine .inr fun t ht => ?_
    rcases (Bool.or_eq_true _ _).mp ht with hdry | hsep
    · rcases (Bool.or_eq_true _ _).mp hdry with hfix | hrun
      · exact flag_unnamed hfix (by decide)
      · exact flag_unnamed hrun (by decide)
    · obtain rfl := eq_of_beq hsep
      decide

/-- Both spellings of the write flag of prettier are flags. -/
theorem write_flag_is_flag {t : Text} (h : is_write_flag t = true) :
    is_flag t = true ∧ is_separator t = false := by
  rcases (Bool.or_eq_true _ _).mp h with hwrite | hshort
  · refine ⟨is_flag_of_equal hwrite (by decide), ?_⟩
    rcases hsep : is_separator t with _ | _
    · rfl
    · obtain rfl := eq_of_beq hsep
      cases hwrite
  · obtain rfl := eq_of_beq hshort
    exact ⟨rfl, rfl⟩

theorem prettier_sound : Sound prettier (proposal .PrettierWrite) where
  edit := flagEdit_replace inert_check ⟨rfl, rfl⟩ fun _ ht => write_flag_is_flag ht
  fixes := by
    intro t _
    rfl
  appends := rfl
  q_dry := by
    intro t ht
    exact (Bool.or_eq_true _ _).mpr (.inl ht)
  unnamed := by
    refine .inr fun t ht => ?_
    rcases (Bool.or_eq_true _ _).mp ht with hdry | hwrite
    · rcases (Bool.or_eq_true _ _).mp hdry with hcheck | hlist
      · exact flag_unnamed hcheck (by decide)
      · exact flag_unnamed hlist (by decide)
    · rcases (Bool.or_eq_true _ _).mp hwrite with hlong | hshort
      · exact flag_unnamed hlong (by decide)
      · obtain rfl := eq_of_beq hshort
        decide

theorem gofmt_write_flag_is_flag {t : Text} (h : is_gofmt_write_flag t = true) :
    is_flag t = true ∧ is_separator t = false := by
  rcases (Bool.or_eq_true _ _).mp h with hshort | hvalue
  · obtain rfl := eq_of_beq hshort
    exact ⟨rfl, rfl⟩
  · obtain ⟨value, rfl⟩ := List.isPrefixOf_iff_prefix.mp hvalue
    exact ⟨rfl, rfl⟩

theorem gofmt_sound : Sound gofmt (proposal .Gofmt) where
  edit := flagEdit_replace inert_diff ⟨rfl, rfl⟩ fun _ ht => gofmt_write_flag_is_flag ht
  fixes := by
    intro t _
    rfl
  appends := rfl
  q_dry := by
    intro t ht
    cases ht
  unnamed := .inl fun _ => rfl

theorem swiftformat_sound : Sound swiftformat (proposal .SwiftFormat) where
  edit := flagEdit_nothing
  fixes := by
    intro t ht
    cases ht
  appends := rfl
  q_dry := fun _ ht => ht
  unnamed := by
    refine .inr fun t ht => ?_
    rcases (Bool.or_eq_true _ _).mp ht with hdry | hnone
    · rcases (Bool.or_eq_true _ _).mp hdry with hlint | hrun
      · exact flag_unnamed hlint (by decide)
      · exact flag_unnamed hrun (by decide)
    · cases hnone

theorem tool_sound {tool : Tool} (h : tool ∈ TOOLS) : Sound tool (proposal tool.key) := by
  fin_cases h
  · exact eslint_sound
  · exact prettier_sound
  · exact append_flag_sound (by decide) fun _ ht => ht
  · exact append_flag_sound (by decide) fun _ ht => ht
  · exact append_flag_sound (by decide) fun _ ht => ht
  · exact gofmt_sound
  · exact append_flag_sound (by decide) fun _ ht => ht
  · exact append_flag_sound (by decide) fun _ ht => ht
  · exact swiftformat_sound

/-! ## When a proposal for a tool is a dry run -/

theorem any_congr_mem {p p' : Text → Bool} {tokens : List Text}
    (h : ∀ t ∈ tokens, p t = p' t) : tokens.any p = tokens.any p' := by
  induction tokens with
  | nil => rfl
  | cons t ts ih =>
    rw [List.any_cons, List.any_cons, h t List.mem_cons_self,
      ih fun x hx => h x (List.mem_cons_of_mem t hx)]

theorem skips_first_congr {p p' : Text → Bool} {tokens : List Text}
    (h : ∀ t ∈ tokens, p t = p' t) : skips_first p tokens = skips_first p' tokens := by
  fun_induction peel_exec_wrappers tokens with
  | case1 tokens hsplit => rw [skips_first_none hsplit, skips_first_none hsplit]
  | case2 tokens command rest hsplit _ ih =>
    have htokens : ∀ t, t ∈ command ∨ t ∈ leading_flags rest ∨ t ∈ skip_leading_flags rest →
        t ∈ tokens := by
      intro t ht
      rw [(split_exec_wrapper_append hsplit).1, ← leading_flags_append rest]
      simpa using ht
    rw [skips_first_some hsplit, skips_first_some hsplit,
      any_congr_mem fun t ht => h t (htokens t (.inl ht)),
      any_congr_mem fun t ht => h t (htokens t (.inr (.inl ht))),
      ih fun t ht => h t (htokens t (.inr (.inr ht)))]

/-- A flag in front of the command is skipped, when no token with `p` is the name of a wrapper. -/
theorem skips_first_of_mem {p : Text → Bool} (hp : ∀ t, p t = true → command_basename t ∉ NAMES)
    {tokens : List Text} {t : Text} (ht : t ∈ exec_wrapper tokens) (hpt : p t = true) :
    skips_first p tokens = true := by
  fun_induction peel_exec_wrappers tokens with
  | case1 tokens hsplit =>
    rw [exec_wrapper_none hsplit] at ht
    cases ht
  | case2 tokens command rest hsplit _ ih =>
    have hcommand : ∀ x ∈ command, p x = false := by
      intro x hx
      rcases hpx : p x with _ | _
      · rfl
      · refine absurd ?_ (hp x hpx)
        rcases split_exec_wrapper_cases hsplit with
          ⟨first, rfl, -, hbase⟩ | ⟨first, second, rfl, -, hruns⟩
        · obtain rfl := List.mem_singleton.mp hx
          rcases hbase with hbase | hbase <;> rw [hbase] <;> decide
        · rcases List.mem_pair.mp hx with rfl | rfl
          · rcases hruns with ⟨hbase, -⟩ | ⟨hbase, -⟩ <;> rw [hbase] <;> decide
          · rcases hruns with ⟨-, rfl | rfl⟩ | ⟨-, hbase | hbase⟩
            · decide
            · decide
            · rw [hbase]
              decide
            · rw [hbase]
              decide
    have hany : command.any p = false := by simpa using hcommand
    rw [skips_first_some hsplit, hany]
    rw [exec_wrapper_some hsplit] at ht
    simp only [List.mem_append] at ht
    rcases ht with (hmem | hmem) | hmem
    · rw [hcommand t hmem] at hpt
      cases hpt
    · have hskipped : (leading_flags rest).any p = true := List.any_eq_true.mpr ⟨t, hmem, hpt⟩
      simp [hskipped]
    · simp [ih hmem]

/-- The tokens that keep a proposal from being a dry run, where the wrappers skip them. -/
def Proposal.misled (proposal : Proposal) (t : Text) : Bool := proposal.q t || proposal.p t

/-- An edited command is a dry run, or none that is known. -/
theorem analyze_tool_edit {tool : Tool} {s : Proposal} (h : Sound tool s) {actual : List Text}
    (htool : named_tool actual = some tool) {b : InternalAnalysis}
    (hb : analyze_tool (edit_first s.p s.g s.e actual) = some b) :
    b.disposition ≠ .Mutating := by
  rcases actual with _ | ⟨first, rest⟩
  · cases htool
  · rcases hp : s.p first with _ | _
    · rw [edit_first_neg hp] at hb
      have hsame : named_tool (first :: edit_first s.p s.g s.e rest) = some tool := htool
      have hany := any_edit_first h.fixes h.appends rest
      have hdry : tool.is_dry (first :: edit_first s.p s.g s.e rest) = true := by
        unfold Tool.is_dry
        split_ifs
        · exact hany
        · rw [List.any_cons, hany, Bool.or_true]
      unfold analyze_tool at hb
      rw [hsame] at hb
      simp only [Option.bind_eq_bind, Option.bind_some, hdry] at hb
      split_ifs at hb
      obtain rfl := Option.some.inj hb
      simp [analysis]
    · obtain ⟨x, xs, hg, hinert⟩ := h.edit.inert first hp
      rw [edit_first_pos hp, hg, List.cons_append] at hb
      unfold analyze_tool at hb
      rw [named_tool_inert hinert] at hb
      cases hb

/-- No proposal is analysed as one that writes. -/
def NotMutating (tokens : List Text) : Prop :=
  ∀ b, analyze_tokens tokens = some b → b.disposition ≠ .Mutating

theorem not_mutating_of_direct {first : Text} {rest : List Text} (h : Direct first rest)
    (hdry : ∀ b, analyze_tool (peel_exec_wrappers (first :: rest)) = some b →
      b.disposition ≠ .Mutating) : NotMutating (first :: rest) := by
  intro b hb
  rw [analyze_tokens_direct h] at hb
  exact hdry b hb

/-- A mutating command of a tool has no flag of a dry run. -/
theorem not_dry_of_mutating {tool : Tool} {actual : List Text} {a : InternalAnalysis}
    (htool : named_tool actual = some tool) (ha : analyze_tool actual = some a)
    (hmutating : a.disposition = .Mutating) : tool.is_dry actual = false := by
  unfold analyze_tool at ha
  rw [htool] at ha
  simp only [Option.bind_eq_bind, Option.bind_some] at ha
  split_ifs at ha
  obtain rfl := Option.some.inj ha
  rcases hdry : tool.is_dry actual with _ | _
  · rfl
  · simp [analysis, hdry] at hmutating

/-- A flag of a dry run stands in front of a mutating command, if anywhere. -/
theorem q_in_wrapper {tool : Tool} {s : Proposal} (h : Sound tool s) {tokens : List Text}
    (htool : named_tool (peel_exec_wrappers tokens) = some tool)
    (hdry : tool.is_dry (peel_exec_wrappers tokens) = false) {t : Text} (ht : t ∈ tokens)
    (hq : s.q t = true) : t ∈ exec_wrapper tokens := by
  rw [← exec_wrapper_append tokens] at ht
  rcases List.mem_append.mp ht with hwrapper | hactual
  · exact hwrapper
  · exfalso
    rcases hcons : peel_exec_wrappers tokens with _ | ⟨first, rest⟩
    · rw [hcons] at hactual
      cases hactual
    · rw [hcons] at hactual htool hdry
      obtain ⟨hmem, hbase⟩ := named_tool_name htool
      rcases List.mem_cons.mp hactual with rfl | hrest
      · rcases h.unnamed with hnone | hunnamed
        · rw [hnone t] at hq
          cases hq
        · refine hunnamed t (by simp [hq]) ?_
          rw [hbase]
          exact List.mem_append_right _ (List.mem_map_of_mem hmem)
      · have hany : rest.any tool.dry = true := List.any_eq_true.mpr ⟨t, hrest, h.q_dry t hq⟩
        unfold Tool.is_dry at hdry
        split_ifs at hdry
        · rw [List.tail_cons, hany] at hdry
          cases hdry
        · rw [List.any_cons, hany, Bool.or_true] at hdry
          cases hdry

/-- What is proposed for a command of a tool is no command that writes, exactly when the first
token that stops or takes the edit is not one that the wrappers skip. -/
theorem proposal_not_mutating_iff {tool : Tool} {s : Proposal} (h : Sound tool s)
    {first : Text} {rest : List Text} {a : InternalAnalysis}
    (htool : named_tool (peel_exec_wrappers (first :: rest)) = some tool)
    (hdirect : Direct first rest) (ha : analyze_tokens (first :: rest) = some a)
    (hmutating : a.disposition = .Mutating) :
    NotMutating (s.tokens (first :: rest)) ↔ skips_first s.misled (first :: rest) = false := by
  have hanalysis := ha
  rw [analyze_tokens_direct hdirect] at hanalysis
  have hdry := not_dry_of_mutating htool hanalysis hmutating
  unfold Proposal.tokens
  rcases hq : (first :: rest).any s.q with _ | _
  · -- the edit is made
    have hnone : ∀ t ∈ first :: rest, s.q t = false := by simpa using hq
    have hskips : skips_first s.misled (first :: rest) = skips_first s.p (first :: rest) :=
      skips_first_congr fun t ht => by rw [Proposal.misled, hnone t ht, Bool.false_or]
    obtain ⟨hskipped, hedited⟩ := peel_edit (e := s.e) h.edit htool
    obtain ⟨first', rest', heq, hdirect'⟩ := direct_edit (e := s.e) h.edit htool hdirect
    rw [hskips, if_neg (by simp)]
    rcases hfirst : skips_first s.p (first :: rest) with _ | _
    · refine iff_of_true ?_ rfl
      have hpeel := hedited hfirst
      rw [heq] at hpeel ⊢
      apply not_mutating_of_direct hdirect'
      intro b hb
      rcases hpeel with hpeel | hunnamed
      · rw [hpeel] at hb
        exact analyze_tool_edit h htool hb
      · unfold analyze_tool at hb
        rw [hunnamed] at hb
        cases hb
    · refine iff_of_false ?_ (by simp)
      intro hnot
      refine hnot a ?_ hmutating
      rw [heq, analyze_tokens_direct hdirect']
      unfold analyze_direct_formatter
      rw [← heq, hskipped hfirst]
      exact hanalysis
  · -- the tokens stay as they are
    rw [if_pos rfl]
    refine iff_of_false (fun hnot => hnot a ha hmutating) ?_
    obtain ⟨t, ht, hqt⟩ := List.any_eq_true.mp hq
    have hunnamed := h.unnamed.resolve_left fun hnone => by simp [hnone t] at hqt
    rw [skips_first_of_mem (p := s.misled) hunnamed (q_in_wrapper h htool hdry ht hqt)
      (by simp [Proposal.misled, hqt])]
    simp

/-! ## Cargo -/

/-- A program that cargo is, is nothing else. -/
theorem analyze_tokens_cargo {first : Text} (h : equal_ignore_case first "cargo" = true)
    (rest : List Text) : analyze_tokens (first :: rest) = analyze_cargo (first :: rest) := by
  have hbase : command_basename first = "cargo".toList :=
    basename_of_equal h (by decide) (by decide)
  have hmanager : ∀ manager, analyze_package_manager (first :: rest) manager = none := by
    intro manager
    refine if_neg fun hlabel => ?_
    have hlabels := hbase.symm.trans (basename_of_label hlabel)
    revert hlabels
    cases manager <;> decide
  have hdirect : analyze_direct_formatter (first :: rest) = none := by
    have hsplit : split_exec_wrapper (first :: rest) = none :=
      split_of_not_wrapper (by rw [hbase]; decide) rest
    have hunnamed : named_tool (first :: rest) = none := by
      refine List.find?_eq_none.mpr fun tool htool hname => ?_
      have hcargo : ∀ tool ∈ TOOLS, tool.name ≠ "cargo".toList := by decide
      exact hcargo tool htool ((eq_of_beq hname).trans hbase)
    unfold analyze_direct_formatter analyze_tool
    rw [peel_none hsplit, hunnamed]
    rfl
  unfold analyze_tokens
  rw [analyze_rustfmt_none (by rw [hbase]; decide), hmanager, hmanager, hmanager, hdirect]
  simp

/-- The tokens in front of the arguments of cargo. -/
structure CargoFront (front : List Text) (sub : Text) : Prop where
  tokens : ∀ t ∈ front, command_basename t ∈ ["cargo".toList, sub] ∨ is_toolchain t = true
  analysis : ∀ args, analyze_tokens (front ++ args) =
    if sub = "fmt".toList then
      some (analysis .CargoFmt (slice_contains_flag args "--check") "cargo fmt".toList)
    else if sub = "fix".toList then
      some (analysis .CargoFix (slice_contains_flag args "--dry-run") "cargo fix".toList)
    else if sub = "clippy".toList then
      if slice_contains_flag args "--fix" then
        some (analysis .CargoClippyFix (slice_contains_flag args "--dry-run")
          "cargo clippy --fix".toList)
      else none
    else none

theorem dropWhile_cons_split {p : Text → Bool} {l after : List Text} {x : Text}
    (h : l.dropWhile p = x :: after) :
    ∃ before, l = before ++ x :: after ∧ (∀ t ∈ before, p t = true) ∧ p x = false := by
  induction l with
  | nil => cases h
  | cons t ts ih =>
    rcases hp : p t with _ | _
    · rw [List.dropWhile_cons_of_neg (by simp [hp])] at h
      obtain ⟨rfl, rfl⟩ := List.cons.inj h
      exact ⟨[], rfl, by simp, hp⟩
    · rw [List.dropWhile_cons_of_pos hp] at h
      obtain ⟨before, rfl, hbefore, hx⟩ := ih h
      refine ⟨t :: before, rfl, ?_, hx⟩
      intro u hu
      rcases List.mem_cons.mp hu with rfl | hu
      · exact hp
      · exact hbefore u hu

theorem cargo_front {tokens : List Text} {a : InternalAnalysis}
    (h : analyze_cargo tokens = some a) :
    ∃ front sub args, tokens = front ++ args ∧ CargoFront front sub := by
  rcases tokens with _ | ⟨first, rest⟩
  · cases h
  · unfold analyze_cargo at h
    dsimp only at h
    split_ifs at h with hcargo
    rcases hdrop : rest.dropWhile is_toolchain with _ | ⟨token, args⟩
    · rw [hdrop] at h
      cases h
    · obtain ⟨plus, rfl, hplus, htoken⟩ := dropWhile_cons_split hdrop
      refine ⟨first :: plus ++ [token], command_basename token, args, by simp, ?_, ?_⟩
      · intro t ht
        simp only [List.cons_append, List.mem_cons, List.mem_append, List.not_mem_nil,
          or_false] at ht
        rcases ht with rfl | ht | rfl
        · refine .inl ?_
          rw [basename_of_equal hcargo (by decide) (by decide)]
          exact List.mem_cons_self
        · exact .inr (hplus t ht)
        · exact .inl (by simp)
      · intro args'
        have hrest : (plus ++ [token] ++ args').dropWhile is_toolchain = token :: args' := by
          rw [List.append_assoc, List.dropWhile_append_of_pos hplus]
          exact List.dropWhile_cons_of_neg (by simp [htoken])
        rw [List.cons_append, List.cons_append, analyze_tokens_cargo hcargo]
        unfold analyze_cargo
        dsimp only
        rw [if_pos hcargo, hrest]

/-- The tokens in front of the arguments are no flags of a fix or of a dry run. -/
theorem CargoFront.no_flag {front : List Text} {sub : Text} (h : CargoFront front sub)
    (hsub : sub ∈ ["fmt".toList, "fix".toList, "clippy".toList]) {flag : String}
    (hflag : Plain flag.toList ∧ Text.to_ascii_lowercase flag.toList = flag.toList ∧
      flag.toList ∉ ["cargo".toList, "fmt".toList, "fix".toList, "clippy".toList] ∧
      flag.toList.head? = some '-') :
    ∀ t ∈ front, equal_ignore_case t flag = false := by
  intro t ht
  rcases heq : equal_ignore_case t flag with _ | _
  · rfl
  · exfalso
    rcases h.tokens t ht with hname | hplus
    · rw [basename_of_equal heq hflag.1 hflag.2.1] at hname
      apply hflag.2.2.1
      rcases List.mem_pair.mp hname with hcargo | hname
      · rw [hcargo]
        exact List.mem_cons_self
      · rw [hname]
        exact List.mem_cons_of_mem _ hsub
    · have hhyphen := is_flag_of_equal heq (by rw [hflag.2.1]; exact hflag.2.2.2)
      unfold is_toolchain at hplus
      obtain ⟨x, rfl⟩ := List.isPrefixOf_iff_prefix.mp hplus
      cases hhyphen

theorem CargoFront.no_separator {front : List Text} {sub : Text} (h : CargoFront front sub)
    (hsub : sub ∈ ["fmt".toList, "fix".toList, "clippy".toList]) :
    ∀ t ∈ front, is_separator t = false := by
  intro t ht
  rcases hsep : is_separator t with _ | _
  · rfl
  · obtain rfl := eq_of_beq hsep
    have hself : equal_ignore_case "--".toList "--" = true := by decide
    rw [h.no_flag hsub (by decide) _ ht] at hself
    cases hself

theorem slice_contains_flag_append (xs ys : List Text) (flag : String) :
    slice_contains_flag (xs ++ ys) flag =
      (slice_contains_flag xs flag || slice_contains_flag ys flag) :=
  List.any_append

theorem slice_contains_flag_none {front : List Text} {flag : String}
    (h : ∀ t ∈ front, equal_ignore_case t flag = false) :
    slice_contains_flag front flag = false := by
  simpa [slice_contains_flag] using h

/-- The check flag is there after the proposal, whatever stands where. -/
theorem suggest_cargo_fmt_checks (tokens : List Text) :
    slice_contains_flag (suggest_cargo_fmt_dry_run tokens) "--check" = true := by
  have hself : equal_ignore_case "--check".toList "--check" = true := by decide
  unfold suggest_cargo_fmt_dry_run
  rcases hpos : tokens.findIdx? is_separator with _ | pos
  · rw [slice_contains_flag_append]
    exact (Bool.or_eq_true _ _).mpr (.inr (by decide))
  · dsimp only
    split_ifs with hcheck
    · obtain ⟨t, ht, hflag⟩ := List.any_eq_true.mp hcheck
      exact List.any_eq_true.mpr ⟨t, List.mem_of_mem_drop ht, hflag⟩
    · have hlt := (List.findIdx?_eq_some_iff_getElem.mp hpos).1
      refine List.any_eq_true.mpr ⟨"--check".toList, ?_, hself⟩
      exact (List.mem_insertIdx (by omega)).mpr (.inl rfl)

/-- What stands before a separator is left by the proposal. -/
theorem suggest_cargo_fmt_append {front : List Text} (h : ∀ t ∈ front, is_separator t = false)
    (args : List Text) :
    suggest_cargo_fmt_dry_run (front ++ args) = front ++ suggest_cargo_fmt_dry_run args := by
  induction front with
  | nil => rfl
  | cons t ts ih =>
    rw [List.cons_append, List.cons_append, ← ih fun x hx => h x (List.mem_cons_of_mem t hx)]
    unfold suggest_cargo_fmt_dry_run
    rw [List.findIdx?_cons, h t List.mem_cons_self]
    rcases (ts ++ args).findIdx? is_separator with _ | pos
    · rfl
    · simp only [Option.map_some, Bool.false_eq_true, if_false, List.drop_succ_cons]
      split_ifs
      · rfl
      · rfl

/-- After the first fix flag is left out, one is left exactly when there were two. -/
theorem any_eraseP_iff {p : Text → Bool} (tokens : List Text) :
    (tokens.eraseP p).any p = false ↔ (tokens.filter p).length ≤ 1 := by
  induction tokens with
  | nil => simp
  | cons t ts ih =>
    rcases hp : p t with _ | _
    · rw [List.eraseP_cons_of_neg (by simp [hp]), List.any_cons, hp, Bool.false_or, ih,
        List.filter_cons_of_neg (by simp [hp])]
    · rw [List.eraseP_cons_of_pos hp, List.filter_cons_of_pos hp]
      simp [List.filter_eq_nil_iff]

theorem eraseP_any {p r : Text → Bool} {tokens : List Text} (h : tokens.any r = false) :
    (tokens.eraseP p).any r = false := by
  have hall : ∀ t ∈ tokens, r t = false := by simpa using h
  have herased : ∀ t ∈ tokens.eraseP p, r t = false :=
    fun t ht => hall t (List.mem_of_mem_eraseP ht)
  simpa using herased

section cargo

variable {front args : List Text}

theorem cargo_fmt_not_mutating (h : CargoFront front "fmt".toList) :
    NotMutating (suggest_cargo_fmt_dry_run (front ++ args)) := by
  intro b hb
  rw [suggest_cargo_fmt_append (h.no_separator (by decide)), h.analysis, if_pos rfl,
    suggest_cargo_fmt_checks] at hb
  obtain rfl := Option.some.inj hb
  simp [analysis]

theorem cargo_fix_not_mutating (h : CargoFront front "fix".toList)
    (hdry : slice_contains_flag args "--dry-run" = false) :
    NotMutating (suggest_cargo_fix_dry_run (front ++ args)) := by
  have hnone : slice_contains_flag (front ++ args) "--dry-run" = false := by
    rw [slice_contains_flag_append, hdry,
      slice_contains_flag_none (h.no_flag (by decide) (by decide)), Bool.or_false]
  have hany : slice_contains_flag (edit_first is_separator
      (fun y => ["--dry-run".toList, y]) ["--dry-run".toList] args) "--dry-run" = true :=
    any_edit_first (fun x _ => rfl) rfl args
  intro b hb
  simp only [suggest_cargo_fix_dry_run, insert_before_separator, hnone, Bool.false_eq_true,
    if_false] at hb
  rw [insertIdx_eq_edit_first, edit_first_append (h.no_separator (by decide)), h.analysis,
    if_neg (by decide), if_pos rfl, hany] at hb
  obtain rfl := Option.some.inj hb
  simp [analysis]

theorem cargo_clippy_not_mutating_iff (h : CargoFront front "clippy".toList)
    (hdry : slice_contains_flag args "--dry-run" = false) :
    NotMutating (suggest_cargo_clippy_dry_run (front ++ args)) ↔
      ((front ++ args).filter fun t => equal_ignore_case t "--fix").length ≤ 1 := by
  have hfront : ∀ t ∈ front, equal_ignore_case t "--fix" = false :=
    h.no_flag (by decide) (by decide)
  have herased : suggest_cargo_clippy_dry_run (front ++ args) =
      front ++ args.eraseP fun t => equal_ignore_case t "--fix" :=
    List.eraseP_append_right _ (by simpa using hfront)
  have hleft : slice_contains_flag (args.eraseP fun t => equal_ignore_case t "--fix")
      "--dry-run" = false := eraseP_any hdry
  rw [List.filter_append, List.filter_eq_nil_iff.mpr (by simpa using hfront), List.nil_append,
    ← any_eraseP_iff, herased]
  unfold NotMutating
  rw [h.analysis, if_neg (by decide), if_neg (by decide), if_pos rfl, hleft]
  rcases hany : (args.eraseP fun t => equal_ignore_case t "--fix").any
      (fun t => equal_ignore_case t "--fix") with _ | _
  · simp [slice_contains_flag, hany]
  · simp [slice_contains_flag, hany, analysis]

end cargo

theorem not_dry {key : DryRunGuardKey} {is_dry : Bool} {name : Text}
    (h : (analysis key is_dry name).disposition = .Mutating) : is_dry = false := by
  cases is_dry
  · rfl
  · cases h

/-- What is proposed for a command of cargo writes nothing, unless a second `--fix` is left. -/
theorem cargo_not_mutating_iff {tokens : List Text} {a : InternalAnalysis}
    (h : analyze_cargo tokens = some a) (hmutating : a.disposition = .Mutating) :
    NotMutating (suggested_tokens tokens a.key) ↔
      (a.key = .CargoClippyFix →
        (tokens.filter fun t => equal_ignore_case t "--fix").length ≤ 1) := by
  obtain ⟨front, sub, args, rfl, hfront⟩ := cargo_front h
  have hanalysis : analyze_tokens (front ++ args) = some a := by
    unfold analyze_tokens
    rw [h]
    rfl
  rw [hfront.analysis] at hanalysis
  split_ifs at hanalysis with hfmt hfix hclippy hcontains
  · obtain rfl := Option.some.inj hanalysis
    subst hfmt
    exact iff_of_true (cargo_fmt_not_mutating hfront) (by simp [analysis])
  · obtain rfl := Option.some.inj hanalysis
    subst hfix
    exact iff_of_true (cargo_fix_not_mutating hfront (not_dry hmutating)) (by simp [analysis])
  · obtain rfl := Option.some.inj hanalysis
    subst hclippy
    have hiff := cargo_clippy_not_mutating_iff hfront (not_dry hmutating)
    simpa [analysis, suggested_tokens] using hiff

/-! ## Rustfmt and scripts -/

theorem rustfmt_not_mutating {tokens : List Text} {a : InternalAnalysis}
    (h : analyze_rustfmt tokens = some a) (hmutating : a.disposition = .Mutating) :
    NotMutating (suggested_tokens tokens a.key) := by
  rcases tokens with _ | ⟨first, args⟩
  · cases h
  · unfold analyze_rustfmt at h
    dsimp only at h
    split_ifs at h with hname
    obtain rfl := Option.some.inj h
    have hbase := basename_of_equal hname (by decide) (by decide)
    have hfirst : equal_ignore_case first "--check" = false := by
      rcases heq : equal_ignore_case first "--check" with _ | _
      · rfl
      · rw [basename_of_equal heq (by decide) (by decide)] at hbase
        exact absurd hbase (by decide)
    have hnone : slice_contains_flag (first :: args) "--check" = false := by
      have hargs := not_dry hmutating
      unfold slice_contains_flag at hargs ⊢
      rw [List.any_cons, hfirst, hargs]
      rfl
    intro b hb
    have hsuggested : suggested_tokens (first :: args) .Rustfmt =
        first :: (args ++ ["--check".toList]) := if_neg (by simp [hnone])
    rw [show (analysis .Rustfmt _ _).key = .Rustfmt from rfl, hsuggested] at hb
    have hchecks : slice_contains_flag (args ++ ["--check".toList]) "--check" = true := by
      rw [slice_contains_flag_append]
      exact (Bool.or_eq_true _ _).mpr (.inr (by decide))
    unfold analyze_tokens at hb
    rw [analyze_cargo_none (by rw [hbase]; decide), analyze_rustfmt, if_pos hname, hchecks] at hb
    obtain rfl := Option.some.inj hb
    simp [analysis]

/-- The script of a command, what stands in front of it, and that more arguments leave it. -/
theorem located_script {first : Text} {rest : List Text} {manager : PackageManager}
    {script_idx : Nat} {script : Text}
    (h : locate_package_script (first :: rest) manager = some (script_idx, script)) :
    ∃ middle args, rest = middle ++ script :: args ∧ script_idx = middle.length + 1 ∧
      (∀ t ∈ middle, equal_ignore_case t "run" = true) ∧
      ∀ args', locate_package_script (first :: (middle ++ script :: args')) manager =
        some (script_idx, script) := by
  have hsimple : ∀ m : PackageManager, m ≠ .Npm →
      locate_package_script (first :: rest) m = some (script_idx, script) →
      ∃ args, rest = script :: args ∧ script_idx = 1 := by
    intro m hm hlocate
    rcases rest with _ | ⟨second, args⟩
    · cases m <;> first | exact absurd rfl hm | cases hlocate
    · refine ⟨args, ?_⟩
      cases m <;> first | exact absurd rfl hm | (cases hlocate; exact ⟨rfl, rfl⟩)
  cases manager with
  | Npm =>
    rcases rest with _ | ⟨second, rest⟩
    · cases h
    · simp only [locate_package_script, locate_npm_script, List.getElem?_cons_succ,
        List.getElem?_cons_zero, Option.bind_eq_bind, Option.bind_some] at h
      split_ifs at h with hrun
      · rcases rest with _ | ⟨third, args⟩
        · cases h
        · obtain ⟨rfl, rfl⟩ := Prod.mk.inj (Option.some.inj h)
          refine ⟨[second], args, rfl, rfl, by simpa using hrun, fun args' => ?_⟩
          simp [locate_package_script, locate_npm_script, hrun]
      · obtain ⟨rfl, rfl⟩ := Prod.mk.inj (Option.some.inj h)
        refine ⟨[], rest, rfl, rfl, by simp, fun args' => ?_⟩
        simp [locate_package_script, locate_npm_script, hrun]
  | Pnpm =>
    obtain ⟨args, rfl, rfl⟩ := hsimple .Pnpm (by decide) h
    exact ⟨[], args, rfl, rfl, by simp, fun _ => rfl⟩
  | Yarn =>
    obtain ⟨args, rfl, rfl⟩ := hsimple .Yarn (by decide) h
    exact ⟨[], args, rfl, rfl, by simp, fun _ => rfl⟩

/-- A script with a key is no flag. -/
theorem script_not_flag {manager : PackageManager} {script : Text} {key : DryRunGuardKey}
    (h : script_key manager script = some key) {flag : String}
    (hflag : script_key .Npm (Text.to_ascii_lowercase flag.toList) = none)
    (hlower : Text.to_ascii_lowercase (Text.to_ascii_lowercase flag.toList) =
      Text.to_ascii_lowercase flag.toList) :
    equal_ignore_case script flag = false := by
  rcases heq : equal_ignore_case script flag with _ | _
  · rfl
  · exfalso
    have hscript : Text.to_ascii_lowercase script = Text.to_ascii_lowercase flag.toList :=
      eq_of_beq heq
    have hsame : script_key .Npm script =
        script_key .Npm (Text.to_ascii_lowercase flag.toList) := by
      unfold script_key script_contains
      rw [hscript, hlower]
    rw [script_key_none_iff.mp (hsame.trans hflag)] at h
    cases h

/-- The two flags that a proposal for a script looks for. -/
def script_flags : List String := ["--check", "--dry-run"]

/-- A mutating script command has neither flag anywhere. -/
theorem script_tokens_no_flag {first : Text} {middle args : List Text} {manager : PackageManager}
    {script : Text} {key : DryRunGuardKey}
    (hlabel : Text.eq_ignore_ascii_case first manager.label = true)
    (hmiddle : ∀ t ∈ middle, equal_ignore_case t "run" = true)
    (hkey : script_key manager script = some key) (hargs : args.any is_script_dry_flag = false)
    {flag : String} (hflag : flag ∈ script_flags) :
    ∀ t ∈ first :: (middle ++ script :: args), equal_ignore_case t flag = false := by
  have hnames : ∀ flag ∈ script_flags, Plain flag.toList ∧
      Text.to_ascii_lowercase flag.toList = flag.toList ∧
      flag.toList ∉ ["npm".toList, "pnpm".toList, "yarn".toList, "run".toList] := by
    decide
  obtain ⟨hplain, hlower, hunnamed⟩ := hnames flag hflag
  have hname : ∀ t,
      command_basename t ∈ ["npm".toList, "pnpm".toList, "yarn".toList, "run".toList] →
        equal_ignore_case t flag = false := by
    intro t ht
    rcases heq : equal_ignore_case t flag with _ | _
    · rfl
    · rw [basename_of_equal heq hplain hlower] at ht
      exact absurd ht hunnamed
  intro t ht
  rcases List.mem_cons.mp ht with rfl | ht
  · apply hname
    rw [basename_of_label hlabel]
    cases manager <;> decide
  · rcases List.mem_append.mp ht with hmem | hmem
    · apply hname
      rw [basename_of_equal (hmiddle t hmem) (by decide) (by decide)]
      decide
    · rcases List.mem_cons.mp hmem with rfl | hmem
      · have hkeys : ∀ flag ∈ script_flags,
            script_key .Npm (Text.to_ascii_lowercase flag.toList) = none := by
          decide +kernel
        refine script_not_flag hkey (hkeys flag hflag) ?_
        rw [hlower, hlower]
      · have hnot : is_script_dry_flag t = false := by
          simpa using (List.any_eq_false.mp hargs) t hmem
        unfold is_script_dry_flag at hnot
        simp only [Bool.or_eq_false_iff] at hnot
        obtain ⟨⟨⟨⟨⟨hcheck, hdry⟩, -⟩, -⟩, -⟩, -⟩ := hnot
        unfold script_flags at hflag
        rcases List.mem_pair.mp hflag with rfl | rfl
        · exact hcheck
        · exact hdry

/-- What a package manager makes of a script that runs no program. -/
theorem analyze_located {first : Text} {rest : List Text} {manager : PackageManager}
    {script_idx : Nat} {script : Text} {key : DryRunGuardKey}
    (hlabel : Text.eq_ignore_ascii_case first manager.label = true)
    (hlocate : locate_package_script (first :: rest) manager = some (script_idx, script))
    (hruns : ¬ runs_program script = true) (hkey : script_key manager script = some key) :
    analyze_package_manager (first :: rest) manager =
      some (analysis key (((first :: rest).drop (script_idx + 1)).any is_script_dry_flag)
        (manager.label ++ [' '] ++ script)) := by
  unfold analyze_package_manager
  dsimp only
  rw [if_pos hlabel, hlocate]
  dsimp only
  rw [if_neg hruns, hkey]
  rfl

theorem suggest_package_script_appends {tokens : List Text} {preferred fallback : String}
    (hpreferred : ∀ t ∈ tokens, equal_ignore_case t preferred = false)
    (hfallback : ∀ t ∈ tokens, equal_ignore_case t fallback = false) :
    suggest_package_script_dry_run tokens preferred fallback =
      tokens ++ ["--".toList, preferred.toList] := by
  refine if_neg ?_
  rw [List.any_eq_true]
  rintro ⟨t, ht, heq⟩
  rw [hpreferred t ht, hfallback t ht] at heq
  cases heq

/-- What is proposed for a script is a dry run of it. -/
theorem script_not_mutating {first : Text} {middle args : List Text} {manager : PackageManager}
    {script : Text} {key : DryRunGuardKey}
    (hlabel : Text.eq_ignore_ascii_case first manager.label = true)
    (hmiddle : ∀ t ∈ middle, equal_ignore_case t "run" = true)
    (hlocate : ∀ args', locate_package_script (first :: (middle ++ script :: args')) manager =
      some (middle.length + 1, script))
    (hruns : ¬ runs_program script = true) (hkey : script_key manager script = some key)
    (hargs : args.any is_script_dry_flag = false) :
    NotMutating (suggested_tokens (first :: (middle ++ script :: args)) key) := by
  have hnone : ∀ flag ∈ script_flags, ∀ t ∈ first :: (middle ++ script :: args),
      equal_ignore_case t flag = false :=
    fun flag hflag => script_tokens_no_flag hlabel hmiddle hkey hargs hflag
  obtain ⟨flag, hflag, hsuggested⟩ : ∃ flag ∈ script_flags,
      suggested_tokens (first :: (middle ++ script :: args)) key =
        first :: (middle ++ script :: (args ++ ["--".toList, flag.toList])) := by
    have hdry := hnone "--dry-run" (by decide)
    have hcheck := hnone "--check" (by decide)
    have hscript := script_key_is_script_key hkey
    cases key with
    | PackageLint => exact ⟨"--dry-run", by decide,
        (suggest_package_script_appends hdry hcheck).trans (by simp)⟩
    | PackageFormat => exact ⟨"--check", by decide,
        (suggest_package_script_appends hcheck hdry).trans (by simp)⟩
    | _ => cases hscript
  have hdropped : (first :: (middle ++ script :: (args ++ ["--".toList, flag.toList]))).drop
      (middle.length + 1 + 1) = args ++ ["--".toList, flag.toList] := by
    simp
  have hdry : (args ++ ["--".toList, flag.toList]).any is_script_dry_flag = true := by
    have hflags : ∀ flag ∈ script_flags, is_script_dry_flag flag.toList = true := by
      decide +kernel
    rw [List.any_append]
    simp [hflags flag hflag]
  intro b hb
  rw [hsuggested, analyze_tokens_manager hlabel,
    analyze_located hlabel (hlocate _) hruns hkey, hdropped, hdry] at hb
  obtain rfl := Option.some.inj hb
  simp [analysis]

/-! ## Every command -/

/-- What a direct formatter is found by. -/
theorem analyze_direct_tool {tokens : List Text} {a : InternalAnalysis}
    (h : analyze_direct_formatter tokens = some a) :
    ∃ tool ∈ TOOLS, named_tool (peel_exec_wrappers tokens) = some tool ∧ a.key = tool.key := by
  unfold analyze_direct_formatter analyze_tool at h
  obtain ⟨tool, htool, happlies⟩ := Option.bind_eq_some_iff.mp h
  split_ifs at happlies
  obtain rfl := Option.some.inj happlies
  rcases hpeeled : peel_exec_wrappers tokens with _ | ⟨first, rest⟩
  · rw [hpeeled] at htool
    cases htool
  · rw [hpeeled] at htool
    exact ⟨tool, (named_tool_name htool).1, htool, rfl⟩

/-- The tokens that keep a proposal of this key from being a dry run, where wrappers skip them. -/
def misleading : DryRunGuardKey → Text → Bool
  | .EslintFix => fun t => eslint.dry t || is_separator t
  | .PrettierWrite => fun t =>
    (equal_ignore_case t "--check" || equal_ignore_case t "--list-different") || is_write_flag t
  | .Black | .RuffFormat | .Rustywind => fun t => equal_ignore_case t "--check"
  | .Isort => fun t => equal_ignore_case t "--check-only"
  | .Gofmt => is_gofmt_write_flag
  | .DartFormat => fun t => equal_ignore_case t "--dry-run"
  | .SwiftFormat => swiftformat.dry
  | _ => fun _ => false

/-- A command of clippy has one `--fix`, and in front of a command of a tool no wrapper skips a
token that stops or takes the edit. -/
def Repairable (tokens : List Text) (key : DryRunGuardKey) : Prop :=
  (key = .CargoClippyFix → (tokens.filter fun t => equal_ignore_case t "--fix").length ≤ 1) ∧
    skips_first (misleading key) tokens = false

theorem skips_first_never (tokens : List Text) : skips_first (fun _ => false) tokens = false := by
  fun_induction peel_exec_wrappers tokens with
  | case1 tokens hsplit => exact skips_first_none hsplit
  | case2 tokens command rest hsplit _ ih =>
    rw [skips_first_some hsplit, ih]
    simp

theorem misleading_tool {tool : Tool} (h : tool ∈ TOOLS) (tokens : List Text) :
    skips_first (misleading tool.key) tokens = skips_first (proposal tool.key).misled tokens := by
  apply skips_first_congr
  intro t _
  fin_cases h <;> first | rfl | exact (Bool.or_false _).symm

/-- A tool's command. -/
theorem tool_repairable_iff {tool : Tool} (h : tool ∈ TOOLS) (tokens : List Text) :
    Repairable tokens tool.key ↔ skips_first (proposal tool.key).misled tokens = false := by
  have hclippy : ∀ tool ∈ TOOLS, tool.key ≠ .CargoClippyFix := by decide
  rw [← misleading_tool h]
  exact and_iff_right fun hkey => absurd hkey (hclippy tool h)

/-- Which analysis a command has. -/
theorem analyze_tokens_cases {tokens : List Text} {a : InternalAnalysis}
    (h : analyze_tokens tokens = some a) :
    analyze_cargo tokens = some a ∨ analyze_rustfmt tokens = some a ∨
      (∃ manager, analyze_package_manager tokens manager = some a) ∨
        analyze_direct_formatter tokens = some a := by
  unfold analyze_tokens at h
  simp only [Option.or_eq_some_iff] at h
  rcases h with hcargo | ⟨-, hrustfmt | ⟨-, hnpm | ⟨-, hpnpm | ⟨-, hyarn | ⟨-, hdirect⟩⟩⟩⟩⟩
  · exact .inl hcargo
  · exact .inr (.inl hrustfmt)
  · exact .inr (.inr (.inl ⟨_, hnpm⟩))
  · exact .inr (.inr (.inl ⟨_, hpnpm⟩))
  · exact .inr (.inr (.inl ⟨_, hyarn⟩))
  · exact .inr (.inr (.inr hdirect))

theorem cargo_key {tokens : List Text} {a : InternalAnalysis} (h : analyze_cargo tokens = some a) :
    a.key ∈ [DryRunGuardKey.CargoFmt, .CargoFix, .CargoClippyFix] := by
  unfold analyze_cargo at h
  split at h
  · cases h
  · split_ifs at h
    split at h
    · cases h
    · dsimp only at h
      split_ifs at h <;> (obtain rfl := Option.some.inj h; simp [analysis])

theorem rustfmt_key {tokens : List Text} {a : InternalAnalysis}
    (h : analyze_rustfmt tokens = some a) : a.key = .Rustfmt := by
  unfold analyze_rustfmt at h
  split at h
  · cases h
  · split_ifs at h
    obtain rfl := Option.some.inj h
    rfl

/-- No analysis has a suggestion of its own. -/
theorem analyze_tokens_custom {tokens : List Text} {a : InternalAnalysis}
    (h : analyze_tokens tokens = some a) : a.suggested_dry_run = none := by
  have hdirect : ∀ b, analyze_direct_formatter tokens = some b → b.suggested_dry_run = none := by
    intro b hb
    unfold analyze_direct_formatter analyze_tool at hb
    obtain ⟨tool, -, happlies⟩ := Option.bind_eq_some_iff.mp hb
    split_ifs at happlies
    obtain rfl := Option.some.inj happlies
    rfl
  rcases analyze_tokens_cases h with hcargo | hrustfmt | ⟨manager, hmanager⟩ | hformatter
  · unfold analyze_cargo at hcargo
    split at hcargo
    · cases hcargo
    · split_ifs at hcargo
      split at hcargo
      · cases hcargo
      · dsimp only at hcargo
        split_ifs at hcargo <;> (obtain rfl := Option.some.inj hcargo; rfl)
  · unfold analyze_rustfmt at hrustfmt
    split at hrustfmt
    · cases hrustfmt
    · split_ifs at hrustfmt
      obtain rfl := Option.some.inj hrustfmt
      rfl
  · unfold analyze_package_manager at hmanager
    split at hmanager
    · cases hmanager
    · split_ifs at hmanager
      split at hmanager
      · cases hmanager
      · split_ifs at hmanager
        · exact hdirect a hmanager
        · obtain ⟨key, -, rfl⟩ := Option.map_eq_some_iff.mp hmanager
          rfl
  · exact hdirect a hformatter

/-- A key for which no wrapper is read. -/
theorem repairable_iff_of_unwrapped {key : DryRunGuardKey} (h : misleading key = fun _ => false)
    (tokens : List Text) : Repairable tokens key ↔ (key = .CargoClippyFix →
      (tokens.filter fun t => equal_ignore_case t "--fix").length ≤ 1) := by
  unfold Repairable
  rw [h, skips_first_never]
  exact and_iff_left rfl

theorem direct_not_mutating_iff {tokens : List Text} {a : InternalAnalysis}
    (h : analyze_tokens tokens = some a) (hdirect : analyze_direct_formatter tokens = some a)
    (hmutating : a.disposition = .Mutating) :
    NotMutating (suggested_tokens tokens a.key) ↔ Repairable tokens a.key := by
  obtain ⟨tool, hmem, hnamed, hkey⟩ := analyze_direct_tool hdirect
  rcases tokens with _ | ⟨first, rest⟩
  · rw [peel_none rfl] at hnamed
    cases hnamed
  · have hfirst := direct_of_key hnamed hmem h hkey
    rw [hkey, suggested_tokens_eq hmem, tool_repairable_iff hmem]
    exact proposal_not_mutating_iff (tool_sound hmem) hnamed hfirst h hmutating

/-- A package manager runs a script, or a program that is analysed by its name. -/
theorem manager_not_mutating_iff {tokens : List Text} {manager : PackageManager}
    {a : InternalAnalysis} (h : analyze_tokens tokens = some a)
    (hmanager : analyze_package_manager tokens manager = some a)
    (hmutating : a.disposition = .Mutating) :
    NotMutating (suggested_tokens tokens a.key) ↔ Repairable tokens a.key := by
  rcases tokens with _ | ⟨first, rest⟩
  · cases hmanager
  · have hanalysis := hmanager
    unfold analyze_package_manager at hmanager
    dsimp only at hmanager
    split_ifs at hmanager with hlabel
    rcases hlocate : locate_package_script (first :: rest) manager with _ | ⟨script_idx, script⟩
    · rw [hlocate] at hmanager
      cases hmanager
    · rw [hlocate] at hmanager
      dsimp only at hmanager
      split_ifs at hmanager with hruns
      · exact direct_not_mutating_iff h hmanager hmutating
      · obtain ⟨key, hkey, rfl⟩ := Option.map_eq_some_iff.mp hmanager
        obtain ⟨middle, args, rfl, rfl, hmiddle, hargs⟩ := located_script hlocate
        have hdropped :
            (first :: (middle ++ script :: args)).drop (middle.length + 1 + 1) = args := by
          simp
        have hscript := script_key_is_script_key hkey
        have hunwrapped : misleading key = fun _ => false := by
          cases key <;> first | rfl | cases hscript
        have hclippy : key ≠ .CargoClippyFix := by
          rintro rfl
          cases hscript
        refine iff_of_true ?_ ((repairable_iff_of_unwrapped hunwrapped _).mpr (absurd · hclippy))
        apply script_not_mutating hlabel hmiddle hargs hruns hkey
        rw [← hdropped]
        exact not_dry hmutating

/-- What is proposed for a command that writes. Of more than one `--fix` of clippy only the first
is left out, and the flags of a wrapper are read and edited, which the analysis skips. -/
theorem suggestion_not_mutating_iff {tokens : List Text} {a : DryRunAnalysis}
    (h : analyze_command_tokens tokens = some a) (hmutating : a.disposition = .Mutating) :
    a.suggested_dry_run = some (Text.join [' '] (suggested_tokens tokens a.key)) ∧
      (NotMutating (suggested_tokens tokens a.key) ↔ Repairable tokens a.key) := by
  obtain ⟨b, hb, rfl⟩ := Option.map_eq_some_iff.mp h
  dsimp only at hmutating ⊢
  refine ⟨?_, ?_⟩
  · unfold DryRunAnalysis.suggested_dry_run
    rw [analyze_tokens_custom hb]
  · rcases analyze_tokens_cases hb with hcargo | hrustfmt | ⟨manager, hmanager⟩ | hdirect
    · have hunwrapped : misleading b.key = fun _ => false := by
        have hkeys := cargo_key hcargo
        revert hkeys
        generalize b.key = key
        intro hkeys
        fin_cases hkeys <;> rfl
      rw [repairable_iff_of_unwrapped hunwrapped]
      exact cargo_not_mutating_iff hcargo hmutating
    · have hkey := rustfmt_key hrustfmt
      refine iff_of_true (rustfmt_not_mutating hrustfmt hmutating) ?_
      rw [hkey, repairable_iff_of_unwrapped rfl]
      simp
    · exact manager_not_mutating_iff hb hmanager hmutating
    · exact direct_not_mutating_iff hb hdirect hmutating

def npx_eslint : List Text := ["npx".toList, "eslint".toList, "--fix".toList, "src".toList]

/-- `npx eslint --fix src` is proposed with `--fix-dry-run` at its end. -/
theorem suggestion_not_mutating_eslint : NotMutating (suggested_tokens npx_eslint .EslintFix) := by
  have hanalysis : analyze_command_tokens npx_eslint =
      some ⟨.EslintFix, .Mutating, npx_eslint, "eslint --fix".toList, none⟩ := by decide +kernel
  apply (suggestion_not_mutating_iff hanalysis rfl).2.mpr
  exact ⟨by decide, by decide +kernel⟩

def cargo_clippy : List Text :=
  ["cargo".toList, "clippy".toList, "--fix".toList, "--fix".toList]

/-- Of `cargo clippy --fix --fix` one `--fix` is left: what is proposed writes. -/
theorem suggestion_mutating :
    ¬ ∀ tokens a, analyze_command_tokens tokens = some a → a.disposition = .Mutating →
      NotMutating (suggested_tokens tokens a.key) := by
  intro h
  have hanalysis : analyze_command_tokens cargo_clippy =
      some ⟨.CargoClippyFix, .Mutating, cargo_clippy, "cargo clippy --fix".toList, none⟩ := by
    decide +kernel
  have hagain : analyze_tokens (suggested_tokens cargo_clippy .CargoClippyFix) =
      some (analysis .CargoClippyFix false "cargo clippy --fix".toList) := by
    decide +kernel
  exact h _ _ hanalysis rfl _ hagain rfl

/-- Behind a wrapper with a separator, the edit is made in front of this separator. -/
example : analyze_tokens (suggested_tokens
    ["npx".toList, "--".toList, "eslint".toList, "--fix".toList, "src".toList] .EslintFix) =
    some (analysis .EslintFix false "eslint --fix".toList) := by
  decide +kernel

end Ecode.dry_run_guard
