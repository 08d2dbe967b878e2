-- The PowerShell commands that are safe on Windows
-- (core/src/command_safety/windows_safe_commands.rs): how an invocation is read
-- into commands, and the list that every command has to be on.
import Ecode.ShellWords

namespace Ecode.windows_safe_commands

/-! ## Text functions -/

/-- `str::trim_matches` of a set of characters. -/
def trim_matches (p : Char → Bool) (t : Text) : Text :=
  ((t.dropWhile p).reverse.dropWhile p).reverse

/-- `str::trim_start_matches` of a set of characters. -/
def trim_start_matches (p : Char → Bool) (t : Text) : Text := t.dropWhile p

/-- `str::split_once` of a character. -/
def split_once (c : Char) (t : Text) : Option (Text × Text) :=
  match t.dropWhile (· ≠ c) with
  | [] => none
  | _ :: rest => some (t.takeWhile (· ≠ c), rest)

def is_paren (c : Char) : Bool := c == '(' || c == ')'

/-- The text that a word is compared by. -/
def inner (w : Text) : Text :=
  Text.to_ascii_lowercase (trim_start_matches (· == '-') (trim_matches is_paren w))

/-! ## One command -/

def is_safe_git_config_override (raw : Text) : Bool :=
  match split_once '=' raw with
  | none => false
  | some (key, value) =>
    let key := Text.to_ascii_lowercase (Text.trim key)
    let value_lc := Text.to_ascii_lowercase
      (trim_matches (fun c => c == '"' || c == '\'') (Text.trim value))
    key == "core.pager".toList && (value_lc == "cat".toList || value_lc == "type".toList)

def SAFE_SUBCOMMANDS : List Text :=
  ["status".toList, "log".toList, "show".toList, "diff".toList, "cat-file".toList]

/-- The loop of `is_safe_git_command` over the arguments. -/
def is_safe_git_args : List Text → Bool
  | [] => false
  | arg :: rest =>
    let arg_lc := Text.to_ascii_lowercase arg
    if Text.starts_with arg ['-'] then
      if Text.eq_ignore_ascii_case arg "-c".toList ||
          Text.eq_ignore_ascii_case arg "--config".toList then
        match rest with
        | [] => false
        | value :: rest =>
          if !is_safe_git_config_override value then false else is_safe_git_args rest
      else if Text.starts_with arg_lc "-c=".toList ||
          Text.starts_with arg_lc "--config=".toList then
        match split_once '=' arg with
        | none => false
        | some (_, value) =>
          if !is_safe_git_config_override value then false else is_safe_git_args rest
      else if Text.starts_with arg_lc "--git-dir=".toList ||
          Text.starts_with arg_lc "--work-tree=".toList then is_safe_git_args rest
      else if Text.eq_ignore_ascii_case arg "--git-dir".toList ||
          Text.eq_ignore_ascii_case arg "--work-tree".toList then
        match rest with
        | [] => false
        | _ :: rest => is_safe_git_args rest
      else is_safe_git_args rest
    else SAFE_SUBCOMMANDS.contains arg_lc

def is_safe_git_command (words : List Text) : Bool := is_safe_git_args words.tail

def UNSAFE_RIPGREP_OPTIONS_WITH_ARGS : List Text := ["--pre".toList, "--hostname-bin".toList]

def UNSAFE_RIPGREP_OPTIONS_WITHOUT_ARGS : List Text := ["--search-zip".toList, "-z".toList]

def is_safe_ripgrep (words : List Text) : Bool :=
  !words.tail.any fun arg =>
    let arg_lc := Text.to_ascii_lowercase arg
    UNSAFE_RIPGREP_OPTIONS_WITHOUT_ARGS.contains arg_lc ||
      UNSAFE_RIPGREP_OPTIONS_WITH_ARGS.any fun opt =>
        arg_lc == opt || Text.starts_with arg_lc (opt ++ ['='])

def SIDE_EFFECTS : List Text :=
  ["set-content".toList, "add-content".toList, "out-file".toList, "new-item".toList,
    "remove-item".toList, "move-item".toList, "copy-item".toList, "rename-item".toList,
    "start-process".toList, "stop-process".toList]

def REDIRECTIONS : List Text :=
  ["&".toList, ">".toList, ">>".toList, "1>".toList, "2>".toList, "2>&1".toList, "*>".toList,
    "<".toList, "<<".toList]

/-- The commands that are safe with any arguments. -/
def READ_ONLY : List Text :=
  ["echo".toList, "write-output".toList, "write-host".toList, "dir".toList, "ls".toList,
    "get-childitem".toList, "gci".toList, "cat".toList, "type".toList, "gc".toList,
    "get-content".toList, "select-string".toList, "sls".toList, "findstr".toList,
    "measure-object".toList, "measure".toList, "get-location".toList, "gl".toList, "pwd".toList,
    "test-path".toList, "tp".toList, "resolve-path".toList, "rvpa".toList, "select-object".toList,
    "select".toList, "get-item".toList]

def is_safe_powershell_command (words : List Text) : Bool :=
  match words with
  | [] => false
  | first :: _ =>
    if words.any fun w => SIDE_EFFECTS.contains (inner w) then false
    else if words.any fun w => REDIRECTIONS.contains w then false
    else
      let command := inner first
      if READ_ONLY.contains command then true
      else if command = "git".toList then is_safe_git_command words
      else if command = "rg".toList then is_safe_ripgrep words
      else false

/-! ## The commands of an invocation -/

def SEPARATORS : List Text := ["|".toList, "||".toList, "&&".toList, ";".toList]

/-- A token with a separator, a redirection or a call in it. -/
def embeds (token : Text) : Bool :=
  token.any (fun c => "|;><&".toList.contains c) || Text.contains token "$(".toList

/-- The loop of `split_into_commands`. -/
def split_loop : List Text → List (List Text) → List Text → Option (List (List Text))
  | [], commands, current => if current.isEmpty then none else some (commands ++ [current])
  | token :: tokens, commands, current =>
    if SEPARATORS.contains token then
      if current.isEmpty then none else split_loop tokens (commands ++ [current]) []
    else if embeds token then none
    else split_loop tokens commands (current ++ [token])

def split_into_commands (tokens : List Text) : Option (List (List Text)) :=
  if tokens.isEmpty then none else split_loop tokens [] []

/-- `shlex::split` is the POSIX word splitting. -/
def parse_powershell_script (script : Text) : Option (List (List Text)) :=
  (shell.words script).bind split_into_commands

def COMMAND_SWITCHES : List Text := ["-command".toList, "/command".toList, "-c".toList]

def COMMAND_PREFIXES : List Text := ["-command".toList, "/command".toList]

def BENIGN_FLAGS : List Text :=
  ["-nologo".toList, "-noprofile".toList, "-noninteractive".toList, "-mta".toList, "-sta".toList]

def FORBIDDEN_FLAGS : List Text :=
  ["-encodedcommand".toList, "-ec".toList, "-file".toList, "/file".toList, "-windowstyle".toList,
    "-executionpolicy".toList, "-workingdirectory".toList]

def parse_powershell_invocation : List Text → Option (List (List Text))
  | [] => none
  | arg :: rest =>
    let lower := Text.to_ascii_lowercase arg
    if COMMAND_SWITCHES.contains lower then
      match rest with
      | [] => none
      | [script] =>
        match parse_powershell_script script with
        | some commands => some commands
        | none => split_into_commands [script]
      | script_args => split_into_commands script_args
    else if COMMAND_PREFIXES.any fun p => Text.starts_with lower (p ++ [':']) then
      if rest ≠ [] then none
      else (split_once ':' arg).bind fun parts => parse_powershell_script parts.2
    else if BENIGN_FLAGS.contains lower then parse_powershell_invocation rest
    else if FORBIDDEN_FLAGS.contains lower then none
    else if Text.starts_with lower ['-'] then none
    else split_into_commands (arg :: rest)

def is_powershell_executable (exe : Text) : Bool :=
  ["powershell".toList, "powershell.exe".toList, "pwsh".toList, "pwsh.exe".toList].contains
    (Text.to_ascii_lowercase exe)

def try_parse_powershell_command_sequence (command : List Text) : Option (List (List Text)) :=
  match command with
  | [] => none
  | exe :: rest => if is_powershell_executable exe then parse_powershell_invocation rest else none

def is_safe_command_windows (command : List Text) : Bool :=
  match try_parse_powershell_command_sequence command with
  | some commands => commands.all is_safe_powershell_command
  | none => false

example : is_safe_command_windows ["pwsh".toList, "-NoLogo".toList, "-Command".toList,
    "rg --files-with-matches foo | Measure-Object".toList] = true := by decide

example : is_safe_command_windows ["pwsh".toList, "-Command".toList,
    "Get-ChildItem; Remove-Item foo".toList] = false := by decide

/-! ## Accepted words -/

/-- The tokens are split into commands that are all safe. -/
def accepts (tokens : List Text) : Bool :=
  match split_into_commands tokens with
  | some commands => commands.all is_safe_powershell_command
  | none => false

/-- The same from the middle of a command on. -/
def accepts_after (current tokens : List Text) : Bool :=
  match split_loop tokens [] current with
  | some commands => commands.all is_safe_powershell_command
  | none => false

theorem not_safe_nil : is_safe_powershell_command [] = false := rfl

/-- The commands that were split before stand before the others. -/
theorem split_loop_commands (tokens : List Text) (commands : List (List Text))
    (current : List Text) :
    split_loop tokens commands current = (split_loop tokens [] current).map (commands ++ ·) := by
  induction tokens generalizing commands current with
  | nil =>
    simp only [split_loop]
    split <;> simp
  | cons token tokens ih =>
    simp only [split_loop]
    split_ifs
    · rfl
    · rw [ih (commands ++ [current]), ih ([] ++ [current])]
      simp [Option.map_map, Function.comp_def]
    · rfl
    · exact ih commands (current ++ [token])

theorem accepts_after_nil (current : List Text) :
    accepts_after current [] = is_safe_powershell_command current := by
  cases current with
  | nil => rfl
  | cons w current => simp [accepts_after, split_loop]

theorem accepts_after_separator (current tokens : List Text) {token : Text}
    (h : SEPARATORS.contains token = true) :
    accepts_after current (token :: tokens) =
      (is_safe_powershell_command current && accepts_after [] tokens) := by
  unfold accepts_after
  rw [split_loop, if_pos h]
  cases current with
  | nil => rfl
  | cons w current =>
    rw [if_neg (by simp), split_loop_commands]
    cases split_loop tokens [] [] <;> simp

theorem accepts_after_word (current tokens : List Text) {token : Text}
    (h : SEPARATORS.contains token = false) :
    accepts_after current (token :: tokens) =
      (!embeds token && accepts_after (current ++ [token]) tokens) := by
  unfold accepts_after
  rw [split_loop, if_neg (by rw [h]; decide)]
  cases embeds token <;> simp

theorem accepts_eq (tokens : List Text) : accepts tokens = accepts_after [] tokens := by
  unfold accepts split_into_commands accepts_after
  cases tokens with
  | nil => rfl
  | cons token tokens => rfl

/-- At a separator the tokens are accepted on both sides. -/
theorem accepts_append_separator (tokens tokens' : List Text) {separator : Text}
    (h : SEPARATORS.contains separator = true) :
    accepts (tokens ++ separator :: tokens') = (accepts tokens && accepts tokens') := by
  have hafter : ∀ current, accepts_after current (tokens ++ separator :: tokens') =
      (accepts_after current tokens && accepts_after [] tokens') := by
    induction tokens with
    | nil =>
      intro current
      rw [List.nil_append, accepts_after_separator _ _ h, accepts_after_nil]
    | cons token tokens ih =>
      intro current
      rw [List.cons_append]
      rcases htoken : SEPARATORS.contains token with _ | _
      · rw [accepts_after_word _ _ htoken, accepts_after_word _ _ htoken, ih, Bool.and_assoc]
      · rw [accepts_after_separator _ _ htoken, accepts_after_separator _ _ htoken, ih,
          Bool.and_assoc]
  rw [accepts_eq, accepts_eq, accepts_eq, hafter]

/-- A script is read into words that are accepted. -/
def accepts_script (script : Text) : Bool :=
  match shell.words script with
  | some words => accepts words
  | none => false

theorem accepts_script_eq (script : Text) :
    accepts_script script =
      match parse_powershell_script script with
      | some commands => commands.all is_safe_powershell_command
      | none => false := by
  unfold accepts_script parse_powershell_script accepts
  cases shell.words script <;> rfl

/-! ## A script that is one word -/

/-- A character that the word splitting treats as itself everywhere. -/
def ordinary (c : Char) : Bool :=
  !shell.is_blank c && c != '#' && c != '"' && c != '\'' && c != '\\'

theorem lex_ordinary {t : Text} (h : ∀ c ∈ t, ordinary c = true) (cur : Text) :
    shell.lex (fun _ => false) .word cur t = ([.word (cur ++ t)], true) := by
  induction t generalizing cur with
  | nil => simp [shell.lex]
  | cons c t ih =>
    have hc := h c List.mem_cons_self
    simp only [ordinary, Bool.and_eq_true, Bool.not_eq_true', bne_iff_ne, ne_eq] at hc
    obtain ⟨⟨⟨⟨hblank, -⟩, hdouble⟩, hsingle⟩, hescape⟩ := hc
    have hnext : shell.next (fun _ => false) .word cur c = ([], .word, cur ++ [c]) := by
      simp [shell.next, hblank, hdouble, hsingle, hescape]
    rw [shell.lex_cons, hnext]
    dsimp only
    rw [ih (fun d hd => h d (List.mem_cons_of_mem _ hd))]
    simp

/-- A text of ordinary characters is one word. -/
theorem words_ordinary {t : Text} (hne : t ≠ []) (h : ∀ c ∈ t, ordinary c = true) :
    shell.words t = some [t] := by
  rcases t with _ | ⟨c, t⟩
  · exact absurd rfl hne
  · have hc := h c List.mem_cons_self
    simp only [ordinary, Bool.and_eq_true, Bool.not_eq_true', bne_iff_ne, ne_eq] at hc
    obtain ⟨⟨⟨⟨hblank, hcomment⟩, hdouble⟩, hsingle⟩, hescape⟩ := hc
    have hnext : shell.next (fun _ => false) .blank [] c = ([], .word, [c]) := by
      simp [shell.next, hblank, hcomment, hdouble, hsingle, hescape]
    have hrest := lex_ordinary (fun d hd => h d (List.mem_cons_of_mem _ hd)) [c]
    unfold shell.words
    rw [shell.lex_cons, hnext]
    dsimp only
    rw [hrest]
    rfl

theorem mem_trim_matches {p : Char → Bool} {t : Text} {c : Char} (hc : c ∈ t)
    (hp : p c = false) : c ∈ trim_matches p t := by
  have hdrop : ∀ {s : Text}, c ∈ s → c ∈ s.dropWhile p := by
    intro s hs
    rw [← List.takeWhile_append_dropWhile (p := p) (l := s)] at hs
    rcases List.mem_append.mp hs with htake | hrest
    · rw [List.mem_takeWhile_imp htake] at hp
      cases hp
    · exact hrest
  exact List.mem_reverse.mpr (hdrop (List.mem_reverse.mpr (hdrop hc)))

/-- A character that no comparison changes or drops is still in the text that a word is compared
by. -/
theorem mem_inner {w : Text} {c : Char} (hc : c ∈ w) (hordinary : ordinary c = false) :
    c ∈ inner w := by
  have hspecial : c ∈ [' ', '\t', '\n', '#', '"', '\'', '\\'] := by
    by_contra hnot
    simp only [List.mem_cons, List.not_mem_nil, or_false, not_or] at hnot
    simp [ordinary, shell.is_blank, hnot] at hordinary
  have hplain : is_paren c = false ∧ (c == '-') = false ∧ ¬ ('A' ≤ c ∧ c ≤ 'Z') := by
    simp only [List.mem_cons, List.not_mem_nil, or_false] at hspecial
    rcases hspecial with rfl | rfl | rfl | rfl | rfl | rfl | rfl <;> decide
  obtain ⟨hparen, hdash, hupper⟩ := hplain
  have hdropped : c ∈ trim_start_matches (· == '-') (trim_matches is_paren w) := by
    have hmem := mem_trim_matches hc hparen
    rw [← List.takeWhile_append_dropWhile (p := (· == '-')) (l := trim_matches is_paren w)]
      at hmem
    rcases List.mem_append.mp hmem with htake | hrest
    · rw [List.mem_takeWhile_imp htake] at hdash
      cases hdash
    · exact hrest
  exact List.mem_map.mpr ⟨c, hdropped, if_neg hupper⟩

/-- The names of safe commands have ordinary characters only. -/
theorem names_ordinary :
    ("rg".toList :: READ_ONLY).all (fun name => name.all ordinary) = true := by
  rfl

/-- A script that is safe as one word is split into that word. -/
theorem words_of_safe_word {script : Text} (h : is_safe_powershell_command [script] = true) :
    shell.words script = some [script] := by
  have hname : inner script ∈ "rg".toList :: READ_ONLY := by
    simp only [is_safe_powershell_command] at h
    split_ifs at h with _ _ hread hgit hrg
    · exact List.mem_cons_of_mem _ (by simpa using hread)
    · cases h
    · rw [hrg]
      exact List.mem_cons_self
  have hordinary : ∀ c ∈ script, ordinary c = true := by
    intro c hc
    by_contra hnot
    have hmem := mem_inner hc (by simpa using hnot)
    have hall := List.all_eq_true.mp names_ordinary _ hname
    exact hnot (List.all_eq_true.mp hall c hmem)
  apply words_ordinary _ hordinary
  rintro rfl
  exact absurd hname (by decide)

/-- What is accepted as it is, is accepted as a script. -/
theorem accepts_script_of_word {script : Text} (h : accepts [script] = true) :
    accepts_script script = true := by
  rw [accepts_eq] at h
  rcases hseparator : SEPARATORS.contains script with _ | _
  · rw [accepts_after_word _ _ hseparator, accepts_after_nil, Bool.and_eq_true] at h
    have hwords := words_of_safe_word h.2
    have hscript : accepts_script script = accepts [script] := by simp [accepts_script, hwords]
    rw [hscript, accepts_eq, accepts_after_word _ _ hseparator, accepts_after_nil, h.1]
    exact h.2
  · rw [accepts_after_separator _ _ hseparator, not_safe_nil, Bool.false_and] at h
    cases h

/-! ## Invocations with a script -/

/-- The switch before a script, apart from it or joined to it. -/
inductive CommandSwitch where
  | apart (arg : Text) (h : COMMAND_SWITCHES.contains (Text.to_ascii_lowercase arg) = true)
  | joined (arg : Text) (h : COMMAND_PREFIXES.contains (Text.to_ascii_lowercase arg) = true)

/-- An invocation of PowerShell with a script, after flags that do not matter. -/
structure Invocation where
  exe : Text
  exe_ok : is_powershell_executable exe = true
  flags : List Text
  flags_ok : ∀ flag ∈ flags, BENIGN_FLAGS.contains (Text.to_ascii_lowercase flag) = true
  switch : CommandSwitch

namespace Invocation

def script_args (switch : CommandSwitch) (script : Text) : List Text :=
  match switch with
  | .apart arg _ => [arg, script]
  | .joined arg _ => [arg ++ ':' :: script]

def command (i : Invocation) (script : Text) : List Text :=
  i.exe :: (i.flags ++ script_args i.switch script)

theorem parse_flag {flag : Text} {rest : List Text}
    (h : BENIGN_FLAGS.contains (Text.to_ascii_lowercase flag) = true) :
    parse_powershell_invocation (flag :: rest) = parse_powershell_invocation rest := by
  have hother : ∀ lower ∈ BENIGN_FLAGS, COMMAND_SWITCHES.contains lower = false ∧
      (COMMAND_PREFIXES.any fun p => Text.starts_with lower (p ++ [':'])) = false := by
    decide
  obtain ⟨hswitch, hcommand⟩ := hother _ (by simpa using h)
  conv_lhs => unfold parse_powershell_invocation
  dsimp only
  rw [if_neg (by rw [hswitch]; decide), if_neg (by rw [hcommand]; decide), if_pos h]

theorem parse_flags {flags : List Text} (rest : List Text)
    (h : ∀ flag ∈ flags, BENIGN_FLAGS.contains (Text.to_ascii_lowercase flag) = true) :
    parse_powershell_invocation (flags ++ rest) = parse_powershell_invocation rest := by
  induction flags with
  | nil => rfl
  | cons flag flags ih =>
    rw [List.cons_append, parse_flag (h flag List.mem_cons_self)]
    exact ih fun f hf => h f (List.mem_cons_of_mem _ hf)

/-- The check of an invocation is that of its script. -/
theorem is_safe_eq (i : Invocation) (script : Text) :
    is_safe_command_windows (i.command script) = accepts_script script := by
  have hparse : try_parse_powershell_command_sequence (i.command script) =
      parse_powershell_invocation (script_args i.switch script) := by
    unfold command try_parse_powershell_command_sequence
    dsimp only
    rw [if_pos i.exe_ok, parse_flags _ i.flags_ok]
  unfold is_safe_command_windows
  rw [hparse]
  rcases i.switch with ⟨arg, h⟩ | ⟨arg, h⟩
  · simp only [script_args]
    unfold parse_powershell_invocation
    dsimp only
    rw [if_pos h, accepts_script_eq]
    rcases hscript : parse_powershell_script script with _ | commands
    · -- the script as one token would be accepted as a script
      dsimp only
      change accepts [script] = false
      rw [← Bool.not_eq_true]
      intro hword
      have haccepted := accepts_script_of_word hword
      rw [accepts_script_eq, hscript] at haccepted
      cases haccepted
    · rfl
  · have hlower : Text.to_ascii_lowercase (arg ++ ':' :: script) =
        Text.to_ascii_lowercase arg ++ ':' :: Text.to_ascii_lowercase script := by
      unfold Text.to_ascii_lowercase
      rw [List.map_append, List.map_cons, if_neg (by decide)]
    have hswitch : COMMAND_SWITCHES.contains (Text.to_ascii_lowercase (arg ++ ':' :: script)) =
        false := by
      have hcolon : ∀ switch ∈ COMMAND_SWITCHES, ':' ∉ switch := by decide
      rw [← Bool.not_eq_true]
      intro hmem
      apply hcolon _ (by simpa using hmem)
      rw [hlower]
      simp
    have hprefix : (COMMAND_PREFIXES.any fun p =>
        Text.starts_with (Text.to_ascii_lowercase (arg ++ ':' :: script)) (p ++ [':'])) =
          true := by
      rw [List.any_eq_true]
      refine ⟨Text.to_ascii_lowercase arg, by simpa using h, ?_⟩
      rw [hlower]
      exact List.isPrefixOf_iff_prefix.mpr ⟨Text.to_ascii_lowercase script, by simp⟩
    have harg : ∀ c ∈ arg, decide (c ≠ ':') = true := by
      intro c hc
      have hcolon : ∀ switch ∈ COMMAND_PREFIXES, ':' ∉ switch := by decide
      rw [decide_eq_true_iff]
      rintro rfl
      apply hcolon _ (by simpa using h)
      exact List.mem_map.mpr ⟨':', hc, by decide⟩
    have hsplit : split_once ':' (arg ++ ':' :: script) = some (arg, script) := by
      unfold split_once
      rw [List.dropWhile_append_of_pos harg, List.takeWhile_append_of_pos harg]
      simp
    simp only [script_args]
    unfold parse_powershell_invocation
    dsimp only
    rw [if_neg (by rw [hswitch]; decide), if_pos hprefix, if_neg (by simp), hsplit,
      accepts_script_eq]
    rfl

end Invocation

end Ecode.windows_safe_commands
