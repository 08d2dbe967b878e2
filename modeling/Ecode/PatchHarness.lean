-- The checks of a patch before it is applied and the message about them
-- (core/src/patch_harness.rs, `apply_patch` of core/src/apply_patch.rs).
import Ecode.Json
import Ecode.PatchVerify
import Ecode.Truncate

namespace Ecode.patch_harness

open apply_patch (ApplyPatchFileChange)
open json (Json)

structure HarnessFinding where
  tool : Text
  file : Option Path
  message : Text
  deriving DecidableEq

/-! ## The checks -/

/-- `Path::extension`: what is behind the last dot of the name, unless that dot comes first. -/
def extension (p : Path) : Option Text :=
  (Path.file_name p).bind fun name =>
    match (name.reverse.dropWhile (· ≠ '.')).reverse.dropLast with
    | [] => none
    | _ => some (name.reverse.takeWhile (· ≠ '.')).reverse

def record_ran (ran : List Text) (name : Text) : List Text :=
  if name ∈ ran then ran else ran ++ [name]

/-- The path of a changed file and its contents, of which a deleted one has none. -/
def analysed (path : Path) : ApplyPatchFileChange → Path × Option Text
  | .Add content => (path, some content)
  | .Update _ move_path new_content => (move_path.getD path, some new_content)
  | .Delete _ => (path, none)

section checks

-- The parsers of serde_json, toml and serde_yaml, with the texts of their errors.
variable (json_error toml_error yaml_error : Text → Option Text)

/-- The name of the check for an extension, what it finds and how its message begins. -/
def structural_parse (ext contents : Text) : Option (Text × Option Text) :=
  if ext = "json".toList then
    some ("json-parse".toList, (json_error contents).map ("invalid JSON: ".toList ++ ·))
  else if ext = "toml".toList then
    some ("toml-parse".toList, (toml_error contents).map ("invalid TOML: ".toList ++ ·))
  else if ext = "yml".toList ∨ ext = "yaml".toList then
    some ("yaml-parse".toList, (yaml_error contents).map ("invalid YAML: ".toList ++ ·))
  else none

/-- One turn of the loop over the changes. -/
def check_change (found : List HarnessFinding × List Text)
    (entry : Path × ApplyPatchFileChange) : List HarnessFinding × List Text :=
  match analysed entry.1 entry.2 with
  | (_, none) => found
  | (path, some contents) =>
    match structural_parse json_error toml_error yaml_error ((extension path).getD []) contents with
    | none => found
    | some (tool, none) => (found.1, record_ran found.2 tool)
    | some (tool, some message) =>
      (found.1 ++ [⟨tool, some path, message⟩], record_ran found.2 tool)

/-- `run_patch_harness`, over the changes in the order of the map. `external` is what actionlint
and the tools of the second part find and which of them ran; it is missing when there is no
temporary directory. -/
def run_patch_harness (changes : List (Path × ApplyPatchFileChange))
    (functional stylistic : Bool) (external : Option (List HarnessFinding × List Text)) :
    Option (List HarnessFinding × List Text) := do
  if !functional && !stylistic then none
  let found := if functional then
    changes.foldl (check_change json_error toml_error yaml_error) ([], []) else ([], [])
  let external ← external
  let findings := found.1 ++ external.1
  let ran := external.2.foldl record_ran found.2
  if findings.isEmpty && ran.isEmpty then none else some (findings, ran)

end checks

/-! ## The message -/

def MAX_ISSUES : Nat := 12

/-- `String::truncate`. Inside a character it panics. -/
def truncate (s : Text) (new_len : Nat) : Option Text :=
  if new_len ≤ Text.len s then (Text.cut new_len s).map Prod.fst else some s

/-- The findings that are reported. -/
def reported (findings : List HarnessFinding) : List HarnessFinding :=
  (findings.take MAX_ISSUES).filter fun finding =>
    Text.len (Text.trim finding.tool) ≤ 120 && Text.len (Text.trim finding.message) ≤ 800

def relative_file (cwd : Path) (finding : HarnessFinding) : Option Text := do
  let path ← finding.file
  if Path.starts_with path cwd then some (Path.display (path.drop cwd.length)) else none

def issue_json (cwd : Path) (finding : HarnessFinding) : Json :=
  .object [("tool".toList, .string finding.tool),
    ("file".toList, Json.of_option .string (relative_file cwd finding)),
    ("msg".toList, .string finding.message)]

def summary_json (cwd : Path) (findings : List HarnessFinding) (ran_checks : List Text) : Json :=
  .object [("validation".toList, .object [
    ("issues".toList, .array ((reported findings).map (issue_json cwd))),
    ("checks".toList, Json.of_strings ran_checks),
    ("issue_count".toList, .number findings.length),
    ("truncated".toList, .bool (MAX_ISSUES < findings.length))])]

def issue_message (message : Text) : Option Text :=
  if 160 < Text.len message then (truncate message 157).map (· ++ "…".toList) else some message

def issue_line (cwd : Path) (finding : HarnessFinding) : Option Text := do
  let msg ← issue_message finding.message
  let parts := [finding.tool] ++ (relative_file cwd finding).toList ++ [msg]
  some ("• ".toList ++ Text.join " — ".toList parts)

def issue_lines (cwd : Path) (findings : List HarnessFinding) : Option (List Text) :=
  if findings.length = 0 then some ["✅ Validate New Code: no issues".toList]
  else do
    let head := "❌ Validate New Code: ".toList ++ Text.ofNat findings.length ++
      " issue(s)".toList
    let lines ← (reported findings).mapM (issue_line cwd)
    let more := if MAX_ISSUES < findings.length then
      ["… plus ".toList ++ Text.ofNat (findings.length - (reported findings).length) ++
        " more issue(s)".toList] else []
    some (head :: lines ++ more)

def checks_line (ran_checks : List Text) : Text :=
  if ran_checks.isEmpty then "Checks run: none".toList
  else "Checks run: ".toList ++ Text.join ", ".toList (ran_checks.mergeSort (· ≤ ·))

def status_message (cwd : Path) (findings : List HarnessFinding) (ran_checks : List Text) :
    Option Text := do
  let lines ← issue_lines cwd findings
  some (Text.join ['\n'] (lines ++ [checks_line ran_checks]))

/-- The summary and the message of `apply_patch`: none where it panics, and nothing to tell
without a harness. -/
def harness_report (cwd : Path) :
    Option (List HarnessFinding × List Text) → Option (Option (Json × Text))
  | none => some none
  | some (findings, ran_checks) =>
    (status_message cwd findings ran_checks).map fun message =>
      some (summary_json cwd findings ran_checks, message)

/-! ## Where it panics -/

theorem truncate_isSome {s : Text} {n : Nat} (h : n ≤ Text.len s) :
    (truncate s n).isSome = truncate.is_char_boundary s n := by
  unfold truncate truncate.is_char_boundary
  rw [if_pos h, Option.isSome_map]

/-- A message is written unless it is cut inside a character. -/
theorem issue_message_isSome_iff (message : Text) :
    (issue_message message).isSome = true ↔
      (160 < Text.len message → truncate.is_char_boundary message 157 = true) := by
  unfold issue_message
  split_ifs with hlong
  · rw [Option.isSome_map, truncate_isSome (by omega)]
    simp [hlong]
  · simp [hlong]

theorem issue_line_isSome (cwd : Path) (finding : HarnessFinding) :
    (issue_line cwd finding).isSome = (issue_message finding.message).isSome := by
  unfold issue_line
  cases issue_message finding.message <;> rfl

theorem mapM_isSome_iff {α β : Type} (f : α → Option β) (l : List α) :
    (l.mapM f).isSome = true ↔ ∀ a ∈ l, (f a).isSome = true := by
  induction l with
  | nil => simp
  | cons a l ih =>
    rw [List.mapM_cons, List.forall_mem_cons, ← ih]
    cases f a with
    | none => simp
    | some b => cases l.mapM f <;> simp

/-- Byte 157 of every reported message that is cut begins a character. -/
def CutsBetweenCharacters (findings : List HarnessFinding) : Prop :=
  ∀ finding ∈ reported findings, 160 < Text.len finding.message →
    truncate.is_char_boundary finding.message 157 = true

theorem issue_lines_isSome_iff (cwd : Path) (findings : List HarnessFinding) :
    (issue_lines cwd findings).isSome = true ↔ CutsBetweenCharacters findings := by
  have hlines : ((reported findings).mapM (issue_line cwd)).isSome = true ↔
      CutsBetweenCharacters findings := by
    simp only [mapM_isSome_iff, issue_line_isSome, issue_message_isSome_iff,
      CutsBetweenCharacters]
  unfold issue_lines
  by_cases hempty : findings.length = 0
  · have hnil : findings = [] := List.length_eq_zero_iff.mp hempty
    subst hnil
    simp [CutsBetweenCharacters, reported]
  · rw [if_neg hempty, ← hlines]
    cases (reported findings).mapM (issue_line cwd) <;> simp

theorem status_message_isSome (cwd : Path) (findings : List HarnessFinding)
    (ran_checks : List Text) :
    (status_message cwd findings ran_checks).isSome = (issue_lines cwd findings).isSome := by
  unfold status_message
  cases issue_lines cwd findings <;> rfl

/-- The message about a patch is built, without a panic, exactly when every message that is cut is
cut between two characters. -/
theorem harness_report_panics_iff (json_error toml_error yaml_error : Text → Option Text)
    (cwd : Path) (changes : List (Path × ApplyPatchFileChange)) (functional stylistic : Bool)
    (external : Option (List HarnessFinding × List Text)) :
    (harness_report cwd (run_patch_harness json_error toml_error yaml_error changes functional
        stylistic external)).isSome = true ↔
      ∀ report ∈ run_patch_harness json_error toml_error yaml_error changes functional stylistic
        external, CutsBetweenCharacters report.1 := by
  cases run_patch_harness json_error toml_error yaml_error changes functional stylistic
    external with
  | none => simp [harness_report]
  | some report =>
    obtain ⟨findings, ran_checks⟩ := report
    simp only [harness_report, Option.isSome_map, status_message_isSome, issue_lines_isSome_iff,
      Option.mem_some_iff, forall_eq']

/-- The error of the TOML parser about a value without quotes shows the line. -/
def unquoted_value_error (contents : Text) : Option Text :=
  some ("TOML parse error at line 1, column 6\n  |\n1 | ".toList ++ contents ++
    "\n  |      ^\nstring values must be quoted, expected literal string\n".toList)

set_option maxRecDepth 4000 in
/-- A TOML file with a line of two-byte characters. -/
theorem accents_are_cut :
    ¬ ∀ (json_error toml_error yaml_error : Text → Option Text) (cwd : Path)
      (changes : List (Path × ApplyPatchFileChange)) (functional stylistic : Bool)
      (external : Option (List HarnessFinding × List Text)),
      (harness_report cwd (run_patch_harness json_error toml_error yaml_error changes functional
        stylistic external)).isSome = true := by
  intro h
  have hreport := h (fun _ => none) unquoted_value_error (fun _ => none) [.RootDir]
    [([.RootDir, .Normal "a.toml".toList],
      .Add ("xy = ".toList ++ List.replicate 60 'é'))] true false (some ([], []))
  revert hreport
  decide

end Ecode.patch_harness
