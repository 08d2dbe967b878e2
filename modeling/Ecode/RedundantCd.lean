-- The guard that proposes a command without its leading `cd`, and when what is proposed runs as the
-- command itself does behind the `cd` (core/src/codex/streaming.rs, core/src/util.rs).
import Ecode.ApprovedCommands
import Ecode.Paths
import Ecode.ShellReading

open Ecode.shell

namespace Ecode.redundant_cd

structure RedundantCdSuggestion where
  label : Text
  original_value : Text
  suggested : List Text
  target_arg : Text
  cwd : Path
  deriving DecidableEq, Repr

def normalize_component (normalized : Path) : Component → Path
  | .CurDir => normalized
  | .ParentDir => Path.pop normalized
  | component => Path.push normalized component

def normalize_path (path : Path) : Path :=
  let normalized := path.foldl normalize_component []
  if normalized = [] then [.CurDir] else normalized

def resolve_cd_target (target : Text) (cwd : Path) : Option Path :=
  if target = [] then none
  else
    let path := Path.of_text target
    some (normalize_path (if Path.is_absolute path then path else Path.join cwd path))

def is_simple_cd_target (target : Text) : Bool :=
  if target = [] ∨ target = "-".toList then false
  else !target.any fun ch => "$`*?[]\x7b\x7d()|><!".toList.contains ch

def is_connector (token : Text) : Bool :=
  token = "&&".toList || token = ";".toList || token = "||".toList

/-- What stands behind the connectors that follow a target. -/
def remainder (tokens : List Text) : Option (List Text) :=
  match tokens.drop 2 with
  | [] => none
  | connector :: rest =>
    if is_connector connector then
      match rest.dropWhile is_connector with
      | [] => none
      | first :: rest => some (first :: rest)
    else none

/-- The target of a `cd` to the working directory, and what stands behind its connectors. -/
def redundant_prefix (tokens : List Text) (cwd normalized_cwd : Path) :
    Option (Text × List Text) :=
  if tokens.head? ≠ some "cd".toList then none
  else do
    let target ← tokens[1]?
    if !is_simple_cd_target target then none
    else do
      let resolved_target ← resolve_cd_target target cwd
      if resolved_target ≠ normalized_cwd then none
      else do
        let rest ← remainder tokens
        some (target, rest)

section detection

-- `shlex::split` and `shlex::try_join` are of another package, the last two functions write
-- `{:?}` of a list of texts and JSON.
variable (shlex_split : Text → Option (List Text)) (shlex_try_join : List Text → Option Text)
  (debug : List Text → Text) (serde_json_to_string : List Text → Option Text)

def detect_redundant_cd_in_shell (argv : List Text) (script_index : Nat) (script : Text)
    (cwd normalized_cwd : Path) : Option RedundantCdSuggestion := do
  let tokens ← shlex_split (Text.trim_start script)
  if tokens.length < 3 then none
  else do
    let (target, remainder_tokens) ← redundant_prefix tokens cwd normalized_cwd
    let suggested_script :=
      (shlex_try_join remainder_tokens).getD (Text.join [' '] remainder_tokens)
    if Text.trim suggested_script = [] then none
    else
      some
        { label := "original_script".toList
          original_value := script
          suggested := argv.set script_index suggested_script
          target_arg := target
          cwd := normalized_cwd }

def detect_redundant_cd_in_argv (argv : List Text) (cwd normalized_cwd : Path) :
    Option RedundantCdSuggestion :=
  if argv.length < 4 then none
  else do
    let (target, suggested) ← redundant_prefix argv cwd normalized_cwd
    some
      { label := "original_argv".toList
        original_value := debug argv
        suggested
        target_arg := target
        cwd := normalized_cwd }

def detect_redundant_cd (argv : List Text) (cwd : Path) : Option RedundantCdSuggestion :=
  let normalized_cwd := normalize_path cwd
  let in_shell := do
    let (script_index, script) ← approved.extract_shell_script argv
    detect_redundant_cd_in_shell shlex_split shlex_try_join argv script_index script cwd
      normalized_cwd
  in_shell.or (detect_redundant_cd_in_argv debug argv cwd normalized_cwd)

def guidance_for_redundant_cd (suggestion : RedundantCdSuggestion) : Text :=
  let suggested := (serde_json_to_string suggestion.suggested).getD
    "<failed to serialize suggested argv>".toList
  let target_display := (shlex_try_join [suggestion.target_arg]).getD suggestion.target_arg
  "Leading cd ".toList ++ target_display ++
    " is redundant because the command already runs in ".toList ++ Path.display suggestion.cwd ++
    ". Drop the prefix before retrying.\n\n".toList ++ suggestion.label ++ ": ".toList ++
    suggestion.original_value ++ "\nresend_exact_argv: ".toList ++ suggested

end detection

/-! ## What runs -/

/-- A script that is `cd target connector rest` to a shell. Only blanks and line breaks stand in
front of it. -/
inductive CdScript (target connector rest : Text) : Text → Prop
  | intro (lead front : Text) (blank : Char) (cd goal : RawWord) :
    (∀ c ∈ lead, is_blank c = true) → (∀ c ∈ front.head?, Text.is_whitespace c = false) →
    (reads start front).1.dropWhile Token.is_newline = [.word cd, .word goal] →
    (reads start front).2 = start → text cd = "cd".toList → text goal = target →
    is_connector connector = true → is_blank blank = true →
    CdScript target connector rest (lead ++ (front ++ (connector ++ blank :: rest)))

/-- What a shell runs behind a `cd` that has succeeded. -/
def run_after (shell : Shell) (connector : Text) (tokens : List Token) : List Token :=
  if connector = "||".toList then shell.skip_pipeline tokens else tokens

/-- The proposed script runs as the rest does: the same commands with the same operators,
expansions and arguments. -/
def Preserved (shell : Shell) (connector rest suggested_script : Text) : Prop :=
  ∃ tokens suggested, read_script rest = some tokens ∧
    read_script suggested_script = some suggested ∧
    shell.runs (run_after shell connector tokens) = shell.runs suggested

/-- What runs behind the `cd` is one command without operators and expansions, and the words that
are proposed are its words: the first of them is no connector in quotes. Behind a `||` all that is
skipped is to be such connectors. -/
def Repeats (shell : Shell) (connector rest : Text) : Prop :=
  ∃ tokens w ws, read_script rest = some tokens ∧
    shell.Repeatable (run_after shell connector tokens) w ws ∧
    if connector = "||".toList then
      (words rest).map (List.dropWhile is_connector) = some (text w :: ws.map text)
    else is_connector (text w) = false

/-- `shlex::try_join`: every word with a special character is quoted, so that it is read back as one
literal word. It fails only for a word with a NUL. -/
def Quotes (shell : Shell) (try_join : List Text → Option Text) : Prop :=
  ∀ ts, (∀ t ∈ ts, '\x00' ∉ t) → ∃ joined raw, try_join ts = some joined ∧
    read_script joined = some (raw.map .word) ∧ List.Forall₂ shell.Requoted ts raw

/-! ## A shell of simple commands -/

def RESERVED : List Text :=
  ["!", "\x7b", "\x7d", "case", "do", "done", "elif", "else", "esac", "fi", "for", "if", "in",
    "then", "until", "while"].map String.toList

def expands : Char × Quoting → Bool
  | (c, .bare) => is_special c || "$`*?[]~=%!{}".toList.contains c
  | (c, .double) => c = '$' || c = '`'
  | (_, .quoted) => false

/-- What follows the first pipeline of a list and the pipelines that `||` keeps from running. -/
def skip_simple_pipeline : List Token → List Token
  | [] => []
  | .op '&' _ :: .op '&' true :: tokens => tokens
  | .op '|' _ :: tokens => skip_simple_pipeline tokens
  | .op _ _ :: tokens => tokens
  | .word _ :: tokens => skip_simple_pipeline tokens

/-- A shell without compound commands. It takes no word as it stands that may be an assignment. -/
def simple_shell : Shell where
  metachar c := expands (c, .bare)
  literal first w := !w.any expands && !(first && w = bare (text w) && text w ∈ RESERVED)
  skip_pipeline := skip_simple_pipeline
  literal_plain := by
    intro w hw
    rw [List.any_eq_false] at hw
    simp only [Bool.false_and, Bool.not_false, Bool.and_true, Bool.not_eq_true', List.any_eq_false]
    rintro ⟨c, quoting⟩ hmem hexpands
    have hbare := hw c (List.mem_map_of_mem (f := Prod.fst) hmem)
    cases quoting with
    | bare => exact hbare hexpands
    | double =>
      apply hbare
      rcases (Bool.or_eq_true _ _).mp hexpands with hc | hc <;>
        (obtain rfl := of_decide_eq_true hc; decide)
    | quoted => cases hexpands

/-- Quoting by single quotes, as `shlex::try_join` may do it. -/
def simple_try_join (ts : List Text) : Option Text :=
  if ts.any (fun t => '\x00' ∈ t) then none else some (quote_all simple_shell.metachar ts)

theorem simple_quotes : Quotes simple_shell simple_try_join := by
  intro ts hts
  have hspecial : ∀ c, is_special c = true → simple_shell.metachar c = true :=
    fun c hc => (Bool.or_eq_true _ _).mpr (.inl hc)
  refine ⟨_, ts.map (quoted_word simple_shell.metachar), if_neg ?_, ?_, ?_⟩
  · rw [List.any_eq_true]
    rintro ⟨t, ht, hmem⟩
    exact hts t ht (of_decide_eq_true hmem)
  · rw [read_quote_all hspecial, List.map_map]
    rfl
  · rw [List.forall₂_map_right_iff, List.forall₂_same]
    intro t _
    unfold Shell.Requoted quoted_word
    by_cases hmeta : t.any simple_shell.metachar = true
    · rw [if_neg (by simp [hmeta]), if_pos hmeta]
      refine ⟨text_all_quoted t, fun first => ?_⟩
      have hexpands : (all_quoted t).any expands = false := by
        rw [List.any_eq_false]
        intro x hx
        obtain ⟨c, -, rfl⟩ := List.mem_map.mp hx
        simp [expands]
      have hne : all_quoted t ≠ bare t := by
        cases t with
        | nil => cases hmeta
        | cons c t => simp [all_quoted, bare]
      simp [simple_shell, hexpands, hne]
    · rw [if_neg hmeta]
      split_ifs with hplain
      · exact ⟨text_bare t, rfl⟩
      · have hnil : t = [] := by
          by_contra hne
          exact hplain ⟨hne, by simpa using hmeta⟩
        subst hnil
        exact ⟨rfl, rfl⟩

/-! ## The words of a script -/

theorem connector_cases {connector : Text} (h : is_connector connector = true) :
    connector = "&&".toList ∨ connector = ";".toList ∨ connector = "||".toList := by
  simpa [is_connector, or_assoc] using h

/-- A connector between blanks is a word of its own. -/
theorem words_connector {connector : Text} {blank : Char} (h : is_connector connector = true)
    (hblank : is_blank blank = true) (rest : Text) :
    words (connector ++ blank :: rest) = (words rest).map (connector :: ·) := by
  have hchar : blank = ' ' ∨ blank = '\t' ∨ blank = '\n' := by
    simpa [is_blank, or_assoc] using hblank
  have hlex : lex (fun _ => false) .blank [] (connector ++ blank :: rest) =
      (.word connector :: (lex (fun _ => false) .blank [] rest).1,
        (lex (fun _ => false) .blank [] rest).2) := by
    rcases connector_cases h with rfl | rfl | rfl <;> rcases hchar with rfl | rfl | rfl <;> rfl
  rw [words_eq, words_eq, hlex]
  dsimp only
  split_ifs <;> rfl

theorem trim_start_lead {lead t : Text} (hlead : ∀ c ∈ lead, is_blank c = true)
    (ht : ∀ c ∈ t.head?, Text.is_whitespace c = false) : Text.trim_start (lead ++ t) = t := by
  unfold Text.trim_start
  rw [List.dropWhile_append_of_pos]
  · cases t with
    | nil => rfl
    | cons c t => simp [ht c rfl]
  · intro c hc
    have hblank : c = ' ' ∨ c = '\t' ∨ c = '\n' := by
      simpa [is_blank, or_assoc] using hlead c hc
    rcases hblank with rfl | rfl | rfl <;> decide

/-- The plain words of a script that is a `cd` and a rest. -/
theorem words_of_script {target connector rest script : Text}
    (h : CdScript target connector rest script) : is_connector connector = true ∧
      words (Text.trim_start script) =
        (words rest).map (["cd".toList, target, connector] ++ ·) := by
  obtain ⟨lead, front, blank, cd, goal, hlead, hfront, htokens, hend, hcd, rfl, hconnector,
    hblank⟩ := h
  refine ⟨hconnector, ?_⟩
  have hsplit : (reads start front).1 =
      (reads start front).1.takeWhile Token.is_newline ++ [.word cd, .word goal] := by
    rw [← htokens, List.takeWhile_append_dropWhile]
  have hnewlines : ∀ token ∈ (reads start front).1.takeWhile Token.is_newline,
      token.is_newline = true := fun token hmem => List.mem_takeWhile_imp hmem
  have hplain : ∀ token ∈ (reads start front).1, token.unjoined = true := by
    intro token hmem
    rw [hsplit] at hmem
    rcases List.mem_append.mp hmem with hmem | hmem
    · exact (Bool.or_eq_true _ _).mpr (.inr (hnewlines token hmem))
    · rcases List.mem_pair.mp hmem with rfl | rfl <;> rfl
  have htexts : word_texts (reads start front).1 = ["cd".toList, text goal] := by
    unfold word_texts
    rw [hsplit, token_items_append, word_texts_newlines hnewlines, ← hcd]
    rfl
  have hhead : ∀ c ∈ (front ++ (connector ++ blank :: rest)).head?,
      Text.is_whitespace c = false := by
    cases front with
    | nil => cases htokens
    | cons c front => exact hfront
  rw [trim_start_lead hlead hhead, words_append hplain (by rw [hend]; exact ⟨rfl, rfl⟩), htexts,
    words_connector hconnector hblank, Option.map_map]
  rfl

/-! ## The proposed script -/

theorem remainder_cd {cd target connector : Text} {ts : List Text}
    (h : is_connector connector = true) {rest : List Text}
    (hrest : remainder (cd :: target :: connector :: ts) = some rest) :
    rest = ts.dropWhile is_connector ∧ rest ≠ [] := by
  unfold remainder at hrest
  rw [List.drop_succ_cons, List.drop_succ_cons, List.drop_zero] at hrest
  dsimp only at hrest
  rw [if_pos h] at hrest
  split at hrest
  · cases hrest
  · next first after heq =>
    rw [heq]
    exact ⟨(Option.some.inj hrest).symm, by rw [← Option.some.inj hrest]; simp⟩

theorem redundant_prefix_some {tokens : List Text} {cwd normalized_cwd : Path} {target : Text}
    {rest : List Text} (h : redundant_prefix tokens cwd normalized_cwd = some (target, rest)) :
    tokens[1]? = some target ∧ remainder tokens = some rest := by
  unfold redundant_prefix at h
  split_ifs at h
  obtain ⟨found, hfound, h⟩ := Option.bind_eq_some_iff.mp h
  split_ifs at h
  obtain ⟨resolved_target, -, h⟩ := Option.bind_eq_some_iff.mp h
  split_ifs at h
  obtain ⟨left, hleft, h⟩ := Option.bind_eq_some_iff.mp h
  obtain ⟨rfl, rfl⟩ := Prod.mk.inj (Option.some.inj h)
  exact ⟨hfound, hleft⟩

section theorems

variable {shlex_split : Text → Option (List Text)} {shlex_try_join : List Text → Option Text}
  {debug : List Text → Text} {argv : List Text} {cwd : Path} {s : RedundantCdSuggestion} {i : Nat}
  {script : Text}

theorem extract_shell_script_length
    (h : approved.extract_shell_script argv = some (i, script)) : argv.length < 4 := by
  unfold approved.extract_shell_script at h
  split at h
  · simp
  · simp
  · cases h

/-- What is proposed for a script. -/
theorem detect_redundant_cd_some (hscript : approved.extract_shell_script argv = some (i, script))
    (h : detect_redundant_cd shlex_split shlex_try_join debug argv cwd = some s) :
    ∃ tokens rest, shlex_split (Text.trim_start script) = some tokens ∧
      tokens[1]? = some s.target_arg ∧ remainder tokens = some rest ∧
      s.suggested = argv.set i ((shlex_try_join rest).getD (Text.join [' '] rest)) := by
  unfold detect_redundant_cd detect_redundant_cd_in_argv at h
  dsimp only at h
  rw [hscript, if_pos (extract_shell_script_length hscript)] at h
  simp only [Option.bind_eq_bind, Option.bind_some, Option.or_none] at h
  unfold detect_redundant_cd_in_shell at h
  obtain ⟨tokens, hsplit, h⟩ := Option.bind_eq_some_iff.mp h
  split_ifs at h
  obtain ⟨⟨target, rest⟩, hprefix, h⟩ := Option.bind_eq_some_iff.mp h
  dsimp only at h
  split_ifs at h
  obtain rfl := Option.some.inj h
  obtain ⟨htarget, hrest⟩ := redundant_prefix_some hprefix
  exact ⟨tokens, rest, hsplit, htarget, hrest, rfl⟩

/-- The proposed script is read as one command of quoted words, so it runs as the rest does exactly
when the rest is this command. -/
theorem preserved_iff {shell : Shell} {connector rest joined : Text} {ts wt : List Text}
    {raw : List RawWord} (hread : read_script joined = some (raw.map .word))
    (hraw : List.Forall₂ shell.Requoted ts raw) (hne : ts ≠ []) (hwords : words rest = some wt)
    (hts : ts = wt.dropWhile is_connector) :
    Preserved shell connector rest joined ↔ Repeats shell connector rest := by
  have hkept : ∀ tokens w (ws : List RawWord), read_script rest = some tokens →
      shell.Repeatable (run_after shell connector tokens) w ws →
      (text w :: ws.map text = ts ↔ if connector = "||".toList then
        (words rest).map (List.dropWhile is_connector) = some (text w :: ws.map text)
        else is_connector (text w) = false) := by
    intro tokens w ws htokens hrepeat
    subst hts
    split_ifs with hconnector
    · rw [hwords, Option.map_some, Option.some.injEq]
      exact eq_comm
    · -- behind the other connectors the plain words are those that the shell reads
      have hrun := hrepeat.words
      unfold run_after at hrun
      rw [if_neg hconnector] at hrun
      have hplain := words_of_trimmed htokens hrun
      rw [List.map_cons] at hplain
      obtain rfl := Option.some.inj (hwords.symm.trans hplain)
      rcases hfirst : is_connector (text w) with _ | _
      · simp [hfirst]
      · rw [List.dropWhile_cons_of_pos hfirst]
        refine iff_of_false (fun heq => ?_) (by simp)
        have hlength := congrArg List.length heq
        have hle := (List.dropWhile_sublist is_connector (l := ws.map text)).length_le
        simp only [List.length_cons] at hlength
        omega
  obtain ⟨t, ts', rfl⟩ := List.exists_cons_of_ne_nil hne
  constructor
  · rintro ⟨tokens, suggested, htokens, hsuggested, hruns⟩
    obtain rfl := Option.some.inj (hread.symm.trans hsuggested)
    obtain ⟨w, ws, hrepeat, htexts⟩ := (runs_requoted_iff hraw _).mp hruns
    exact ⟨tokens, w, ws, htokens, hrepeat, (hkept tokens w ws htokens hrepeat).mp htexts⟩
  · rintro ⟨tokens, w, ws, htokens, hrepeat, hfirst⟩
    refine ⟨tokens, _, htokens, hread, (runs_requoted_iff hraw _).mpr ⟨w, ws, hrepeat, ?_⟩⟩
    exact (hkept tokens w ws htokens hrepeat).mpr hfirst

/-- What is proposed for `cd target connector rest` runs as the rest does exactly when the rest is
one command of words that a shell takes as they stand, and is run. The words are split off and
quoted again, so operators, line breaks and expansions are lost, and a `||` is dropped. -/
theorem suggestion_preserved_iff {shell : Shell} {target connector rest : Text}
    (hsplit : ∀ t, shlex_split t = words t) (hjoin : Quotes shell shlex_try_join)
    (hnul : '\x00' ∉ script) (hscript : approved.extract_shell_script argv = some (i, script))
    (hcd : CdScript target connector rest script)
    (h : detect_redundant_cd shlex_split shlex_try_join debug argv cwd = some s) :
    s.target_arg = target ∧ ∃ suggested_script, s.suggested = argv.set i suggested_script ∧
      (Preserved shell connector rest suggested_script ↔ Repeats shell connector rest) := by
  obtain ⟨tokens, left, htokens, htarget, hleft, hsuggested⟩ := detect_redundant_cd_some hscript h
  obtain ⟨hconnector, hscript_words⟩ := words_of_script hcd
  rw [hsplit] at htokens
  have hnul_trimmed : '\x00' ∉ Text.trim_start script :=
    fun hmem => hnul ((List.dropWhile_sublist _).subset hmem)
  have hfree := words_free (by decide) htokens hnul_trimmed
  rw [hscript_words] at htokens
  obtain ⟨wt, hwt, rfl⟩ := Option.map_eq_some_iff.mp htokens
  obtain ⟨hts, hne⟩ := remainder_cd hconnector hleft
  have hleft_free : ∀ t ∈ left, '\x00' ∉ t := by
    intro t ht
    rw [hts] at ht
    exact hfree t (List.mem_append_right _ ((List.dropWhile_sublist _).subset ht))
  obtain ⟨joined, raw, hjoined, hread, hraw⟩ := hjoin left hleft_free
  refine ⟨(Option.some.inj htarget).symm, joined, ?_, preserved_iff hread hraw hne hwt hts⟩
  rw [hsuggested, hjoined]
  rfl

end theorems

def project : Path := [.RootDir, .Normal "tmp".toList, .Normal "project".toList]

def cd_project (rest : Text) : Text := "cd /tmp/project && ".toList ++ rest

def bash (script : Text) : List Text := ["bash".toList, "-lc".toList, script]

/-- What is proposed in the project, by the shell of simple commands. -/
def detect_in_project (rest : Text) : Option RedundantCdSuggestion :=
  detect_redundant_cd words simple_try_join (fun _ => []) (bash (cd_project rest)) project

theorem cd_project_script (rest : Text) :
    CdScript "/tmp/project".toList "&&".toList rest (cd_project rest) := by
  apply CdScript.intro [] "cd /tmp/project ".toList ' ' (bare "cd".toList)
    (bare "/tmp/project".toList)
  · simp
  · simp [Text.is_whitespace]
  · decide +kernel
  · decide +kernel
  · rfl
  · rfl
  · rfl
  · rfl

/-- `cd /tmp/project && ls 'a b'` is proposed without its `cd`, and lists the same file. -/
theorem suggestion_preserved_ls :
    Preserved simple_shell "&&".toList "ls 'a b'".toList "ls 'a b'".toList := by
  have hdetect : detect_in_project "ls 'a b'".toList = some
      ⟨"original_script".toList, cd_project "ls 'a b'".toList, bash "ls 'a b'".toList,
        "/tmp/project".toList, project⟩ := by decide +kernel
  have hscript : approved.extract_shell_script (bash (cd_project "ls 'a b'".toList)) =
      some (2, cd_project "ls 'a b'".toList) := by decide +kernel
  obtain ⟨-, suggested_script, hsuggested, hiff⟩ := suggestion_preserved_iff (fun _ => rfl)
    simple_quotes (by decide +kernel) hscript (cd_project_script _) hdetect
  obtain rfl : "ls 'a b'".toList = suggested_script := by
    simpa [bash] using hsuggested
  apply hiff.mpr
  refine ⟨_, bare "ls".toList, [all_quoted "a b".toList], rfl, ⟨?_, ?_, ?_⟩, ?_⟩
  · decide +kernel
  · have hplain : ("ls".toList).any simple_shell.metachar = false := by decide +kernel
    unfold Shell.Kept
    rw [text_bare, hplain, if_neg Bool.false_ne_true]
    exact .inl rfl
  · decide +kernel
  · rw [if_neg (by decide)]
    rfl

/-- `cd /tmp/project && ls $HOME` is proposed as `ls '$HOME'`. -/
theorem suggestion_not_preserved :
    ¬ ∀ shell try_join argv cwd s i script target connector rest suggested_script,
      Quotes shell try_join → approved.extract_shell_script argv = some (i, script) →
      CdScript target connector rest script →
      detect_redundant_cd words try_join (fun _ => []) argv cwd = some s →
      s.suggested = argv.set i suggested_script →
      Preserved shell connector rest suggested_script := by
  intro h
  have hdetect : detect_in_project "ls $HOME".toList = some
      ⟨"original_script".toList, cd_project "ls $HOME".toList, bash "ls '$HOME'".toList,
        "/tmp/project".toList, project⟩ := by decide +kernel
  have hscript : approved.extract_shell_script (bash (cd_project "ls $HOME".toList)) =
      some (2, cd_project "ls $HOME".toList) := by decide +kernel
  obtain ⟨tokens, suggested, htokens, hsuggested, hruns⟩ := h simple_shell simple_try_join _ _ _ 2
    _ _ _ _ "ls '$HOME'".toList simple_quotes hscript (cd_project_script _) hdetect rfl
  have hdiffers : (read_script "ls $HOME".toList).map simple_shell.runs ≠
      (read_script "ls '$HOME'".toList).map simple_shell.runs := by decide +kernel
  rw [htokens, hsuggested] at hdiffers
  exact hdiffers (congrArg some hruns)

end Ecode.redundant_cd
