-- The words that the safe list reads in a shell script (core/src/bash.rs,
-- core/src/command_safety/is_safe_command.rs), and the words that bash executes.
import Ecode.Paths
import Ecode.TextLines

namespace Ecode.bash

/-! ## Syntax trees -/

/-- A node that tree-sitter gives: its kind, whether it is named, the source text that it stands
for, where that begins, and its children. -/
inductive Node where
  | mk (kind : Text) (named : Bool) (utf8_text : Text) (start_byte : Nat) (children : List Node)

namespace Node

def kind : Node → Text
  | mk kind _ _ _ _ => kind

def is_named : Node → Bool
  | mk _ named _ _ _ => named

def utf8_text : Node → Text
  | mk _ _ utf8_text _ _ => utf8_text

def start_byte : Node → Nat
  | mk _ _ _ start_byte _ => start_byte

def children : Node → List Node
  | mk _ _ _ _ children => children

def named_children (n : Node) : List Node := n.children.filter is_named

end Node

/-- A tree, and whether the parser found an error in it. -/
structure Tree where
  root_node : Node
  has_error : Bool

/-! ## The walk over the tree -/

def ALLOWED_KINDS : List Text :=
  ["program".toList, "list".toList, "pipeline".toList, "command".toList, "command_name".toList,
    "word".toList, "string".toList, "string_content".toList, "raw_string".toList, "number".toList]

def ALLOWED_PUNCT_TOKENS : List Text :=
  ["&&".toList, "||".toList, ";".toList, "|".toList, "\"".toList, "'".toList]

/-- The walk goes on after this node. -/
def allowed (node : Node) : Bool :=
  if node.is_named then ALLOWED_KINDS.contains node.kind
  else if node.kind.any (fun c => "&;|".toList.contains c) &&
      !ALLOWED_PUNCT_TOKENS.contains node.kind then false
  else ALLOWED_PUNCT_TOKENS.contains node.kind || Text.trim node.kind == []

def is_command (node : Node) : Bool := node.is_named && node.kind == "command".toList

/-- The loop over the stack, with its top first. The `fuel` is one for each node. -/
def walk : Nat → List Node → List Node → Option (List Node)
  | _, [], command_nodes => some command_nodes
  | 0, _ :: _, _ => none
  | fuel + 1, node :: stack, command_nodes =>
    if allowed node then
      walk fuel (node.children.reverse ++ stack)
        (if is_command node then command_nodes ++ [node] else command_nodes)
    else none

mutual

/-- The nodes of a tree in the order of the walk: the last child comes first. -/
def nodes : Node → List Node
  | .mk kind named utf8_text start_byte children =>
    .mk kind named utf8_text start_byte children :: nodes_of_children children

def nodes_of_children : List Node → List Node
  | [] => []
  | child :: children => nodes_of_children children ++ nodes child

end

def sort_by_start (command_nodes : List Node) : List Node :=
  command_nodes.insertionSort (fun a b => a.start_byte ≤ b.start_byte)

/-! ## The words of a command -/

/-- The word that a named child of a command gives. -/
def word_of (child : Node) : Option Text :=
  if child.kind = "command_name".toList then
    child.named_children.head?.bind fun word_node =>
      if word_node.kind = "word".toList then some word_node.utf8_text else none
  else if child.kind = "word".toList ∨ child.kind = "number".toList then some child.utf8_text
  else if child.kind = "string".toList then
    match child.children with
    | [quote, content, quote'] =>
      if quote.kind = "\"".toList ∧ content.kind = "string_content".toList ∧
          quote'.kind = "\"".toList then some content.utf8_text else none
    | _ => none
  else if child.kind = "raw_string".toList then
    (Text.strip_prefix child.utf8_text ['\'']).bind fun s => Text.strip_suffix s ['\'']
  else none

def parse_plain_command_from_node (cmd : Node) : Option (List Text) :=
  if cmd.kind ≠ "command".toList then none else cmd.named_children.mapM word_of

def try_parse_word_only_commands_sequence (tree : Tree) : Option (List (List Text)) := do
  if tree.has_error then none
  else
    let command_nodes ← walk (nodes tree.root_node).length [tree.root_node] []
    (sort_by_start command_nodes).mapM parse_plain_command_from_node

/-! ## What bash makes of a word -/

/-- Quote removal: a backslash before a character that it escapes is dropped, and before a line
feed that feed too. -/
def unescape (escapes : Char → Bool) : Text → Text
  | '\\' :: c :: t =>
    if escapes c then (if c = '\n' then [] else [c]) ++ unescape escapes t
    else '\\' :: unescape escapes (c :: t)
  | c :: t => c :: unescape escapes t
  | [] => []

/-- Outside quotes a backslash escapes every character. -/
def outside_quotes : Char → Bool := fun _ => true

/-- Between double quotes it escapes these only. -/
def in_double_quotes (c : Char) : Bool := "$`\"\\\n".toList.contains c

/-- The text that bash makes of a token. A string gives its contents, without the quotes. -/
def token_argument (token : Node) : Text :=
  if token.kind = "raw_string".toList then token.utf8_text.tail.dropLast
  else if token.kind = "string".toList then
    (token.children.filter fun child => child.kind = "string_content".toList).flatMap
      fun content => unescape in_double_quotes content.utf8_text
  else unescape outside_quotes token.utf8_text

/-- A word is one token, or several that are put together. -/
def word_argument (word : Node) : Text :=
  if word.kind = "concatenation".toList then word.children.flatMap token_argument
  else token_argument word

/-- The argument that bash makes of a child of a command. -/
def argument (child : Node) : Text :=
  if child.kind = "command_name".toList then
    child.named_children.head?.elim [] word_argument
  else word_argument child

/-- The argument vector that bash makes of a simple command. -/
def argv (cmd : Node) : List Text := cmd.named_children.map argument

/-- The simple commands of a script, in the order of the source. -/
def simple_commands (tree : Tree) : List Node :=
  sort_by_start ((nodes tree.root_node).filter is_command)

/-! ## The safe list -/

def UNSAFE_FIND_OPTIONS : List Text :=
  ["-exec".toList, "-execdir".toList, "-ok".toList, "-okdir".toList, "-delete".toList,
    "-fls".toList, "-fprint".toList, "-fprint0".toList, "-fprintf".toList]

def UNSAFE_RIPGREP_OPTIONS_WITH_ARGS : List Text := ["--pre".toList, "--hostname-bin".toList]

def UNSAFE_RIPGREP_OPTIONS_WITHOUT_ARGS : List Text := ["--search-zip".toList, "-z".toList]

def ALWAYS_SAFE : List Text :=
  ["cat".toList, "cd".toList, "echo".toList, "false".toList, "grep".toList, "head".toList,
    "ls".toList, "nl".toList, "pwd".toList, "tail".toList, "true".toList, "wc".toList,
    "which".toList]

def is_number (t : Text) : Bool := !t.isEmpty && t.all Char.isDigit

/-- The argument matches `^(\d+,)?\d+p$`. -/
def is_valid_sed_n_arg (arg : Option Text) : Bool :=
  match arg with
  | none => false
  | some s =>
    match Text.strip_suffix s ['p'] with
    | none => false
    | some core =>
      match Text.split ',' core with
      | [num] => is_number num
      | [a, b] => is_number a && is_number b
      | _ => false

def is_safe_to_call_with_exec (command : List Text) : Bool :=
  match command.head? with
  | none => false
  | some cmd0 =>
    if ALWAYS_SAFE.contains cmd0 then true
    else if cmd0 = "find".toList then
      !command.any fun arg => UNSAFE_FIND_OPTIONS.contains arg
    else if cmd0 = "rg".toList then
      !command.any fun arg =>
        UNSAFE_RIPGREP_OPTIONS_WITHOUT_ARGS.contains arg ||
          UNSAFE_RIPGREP_OPTIONS_WITH_ARGS.any fun opt =>
            arg == opt || Text.starts_with arg (opt ++ ['='])
    else if cmd0 = "git".toList then
      match command[1]? with
      | some sub =>
        ["branch".toList, "status".toList, "log".toList, "diff".toList, "show".toList].contains sub
      | none => false
    else if cmd0 = "cargo".toList ∧ command[1]? = some "check".toList then true
    else if cmd0 = "sed".toList ∧ command.length = 4 ∧ command[1]? = some "-n".toList ∧
        is_valid_sed_n_arg command[2]? ∧ command[3]?.map List.isEmpty = some false then true
    else false

/-- The decision on the commands of a script. -/
def all_safe (all_commands : List (List Text)) : Bool :=
  !all_commands.isEmpty && all_commands.all is_safe_to_call_with_exec

def is_bash (cmd : Text) : Bool :=
  let trimmed := Text.trim_matches '\'' (Text.trim_matches '"' cmd)
  let named (name : Text) : Bool :=
    Text.eq_ignore_ascii_case name "bash".toList || Text.eq_ignore_ascii_case name "bash.exe".toList
  named trimmed || ((Path.file_name (Path.of_text trimmed)).map named).getD false

/-- The script of a command that the safe list reads in a script: the only word, or that of
`bash -lc`. -/
def is_safe_script (try_parse_bash : Text → Option Tree) (script : Text) : Bool :=
  match (try_parse_bash script).bind try_parse_word_only_commands_sequence with
  | some all_commands => all_safe all_commands
  | none => false

/-- `is_known_safe_command`, on targets other than Windows. -/
def is_known_safe_command (try_parse_bash : Text → Option Tree) (command : List Text) : Bool :=
  is_safe_to_call_with_exec command ||
    match command with
    | [script] => is_safe_script try_parse_bash script
    | [bash, flag, script] =>
      is_bash bash && flag == "-lc".toList && is_safe_script try_parse_bash script
    | _ => false

/-! ## The walk sees every node -/

theorem nodes_of_children_eq (children : List Node) :
    nodes_of_children children = children.reverse.flatMap nodes := by
  induction children with
  | nil => rfl
  | cons child children ih => simp [nodes_of_children, ih]

theorem nodes_eq (node : Node) : nodes node = node :: node.children.reverse.flatMap nodes := by
  obtain ⟨kind, named, utf8_text, start_byte, children⟩ := node
  rw [nodes, nodes_of_children_eq]
  rfl

/-- With one unit of fuel for each node, the walk goes over all of them. -/
theorem walk_eq {fuel : Nat} {stack : List Node} (command_nodes : List Node)
    (hfuel : (stack.flatMap nodes).length ≤ fuel) :
    walk fuel stack command_nodes =
      if (stack.flatMap nodes).all allowed then
        some (command_nodes ++ (stack.flatMap nodes).filter is_command)
      else none := by
  induction fuel generalizing stack command_nodes with
  | zero =>
    rcases stack with _ | ⟨node, stack⟩
    · simp [walk]
    · rw [List.flatMap_cons, nodes_eq] at hfuel
      simp at hfuel
  | succ fuel ih =>
    rcases stack with _ | ⟨node, stack⟩
    · simp [walk]
    · have hnodes : (node :: stack).flatMap nodes =
          node :: (node.children.reverse ++ stack).flatMap nodes := by
        rw [List.flatMap_cons, nodes_eq, List.flatMap_append, List.cons_append]
      rw [hnodes] at hfuel ⊢
      rw [walk, ih _ (by simpa using hfuel)]
      rcases hallowed : allowed node with _ | _
      · simp [hallowed]
      · rcases hcommand : is_command node with _ | _
        · simp [hallowed, hcommand]
        · simp [hallowed, hcommand]

/-- What the extraction gives: the words of the simple commands. -/
theorem try_parse_cases {tree : Tree} {cmds : List (List Text)}
    (h : try_parse_word_only_commands_sequence tree = some cmds) :
    (simple_commands tree).mapM parse_plain_command_from_node = some cmds := by
  unfold try_parse_word_only_commands_sequence at h
  split at h
  · cases h
  · obtain ⟨command_nodes, hwalk, hparse⟩ := Option.bind_eq_some_iff.mp h
    have hstack : ([tree.root_node].flatMap nodes).length ≤ (nodes tree.root_node).length := by
      simp
    rw [walk_eq [] hstack] at hwalk
    split at hwalk
    · obtain rfl := Option.some.inj hwalk
      simpa [simple_commands] using hparse
    · cases hwalk

/-! ## Escapes -/

/-- A backslash stands before a character that it escapes. -/
def has_escape (escapes : Char → Bool) : Text → Bool
  | a :: b :: t => (a == '\\' && escapes b) || has_escape escapes (b :: t)
  | _ => false

/-- A character that begins no escape is passed over. -/
theorem has_escape_cons (escapes : Char → Bool) {a : Char} {t : Text}
    (h : ∀ c s, a :: t = '\\' :: c :: s → escapes c = false) :
    has_escape escapes (a :: t) = has_escape escapes t := by
  rcases t with _ | ⟨b, t⟩
  · rfl
  · have hnone : (a == '\\' && escapes b) = false := by
      by_cases ha : a = '\\'
      · subst ha
        simpa using h b t rfl
      · simp [ha]
    rw [has_escape, hnone, Bool.false_or]

/-- Quote removal makes no text longer, and a text with an escape shorter. -/
theorem unescape_length (escapes : Char → Bool) (t : Text) :
    (unescape escapes t).length ≤ t.length ∧
      (has_escape escapes t = true → (unescape escapes t).length < t.length) := by
  induction t using unescape.induct escapes with
  | case1 c t hc ih =>
    have hshort : (unescape escapes ('\\' :: c :: t)).length < ('\\' :: c :: t).length := by
      rw [unescape, if_pos hc]
      simp only [List.length_append, List.length_cons]
      split <;> simp <;> omega
    exact ⟨hshort.le, fun _ => hshort⟩
  | case2 c t hc ih =>
    rw [has_escape_cons escapes (by rintro _ _ ⟨⟩; simpa using hc), unescape, if_neg hc]
    simpa using ih
  | case3 c t hplain ih =>
    rw [has_escape_cons escapes (fun d s heq => absurd heq (by
      rintro ⟨⟩
      exact hplain d s rfl rfl)), unescape.eq_2 _ _ _ hplain]
    simpa using ih
  | case4 => exact ⟨le_refl _, by rintro ⟨⟩⟩

/-- Quote removal leaves exactly those texts alone that have no escape. -/
theorem unescape_eq_self_iff (escapes : Char → Bool) (t : Text) :
    unescape escapes t = t ↔ has_escape escapes t = false := by
  constructor
  · intro hself
    by_contra hescape
    have hshort := (unescape_length escapes t).2 (by simpa using hescape)
    rw [hself] at hshort
    exact lt_irrefl _ hshort
  · intro hnone
    induction t using unescape.induct escapes with
    | case1 c t hc ih => simp [has_escape, hc] at hnone
    | case2 c t hc ih =>
      rw [has_escape_cons escapes (by rintro _ _ ⟨⟩; simpa using hc)] at hnone
      rw [unescape, if_neg hc, ih hnone]
    | case3 c t hplain ih =>
      rw [has_escape_cons escapes (fun d s heq => absurd heq (by
        rintro ⟨⟩
        exact hplain d s rfl rfl))] at hnone
      rw [unescape.eq_2 _ _ _ hplain, ih hnone]
    | case4 => rfl

/-- A bare word has a backslash before a character, or a string one before a character that it
escapes there. -/
def has_escaped (child : Node) : Bool :=
  if child.kind = "command_name".toList then
    child.named_children.head?.any fun word_node => has_escape outside_quotes word_node.utf8_text
  else if child.kind = "word".toList ∨ child.kind = "number".toList then
    has_escape outside_quotes child.utf8_text
  else if child.kind = "string".toList then
    child.children.any fun content =>
      content.kind == "string_content".toList && has_escape in_double_quotes content.utf8_text
  else false

/-- The argument of a bare word is its text without the escapes. -/
theorem word_argument_bare {word : Node}
    (h : word.kind = "word".toList ∨ word.kind = "number".toList) :
    word_argument word = unescape outside_quotes word.utf8_text := by
  unfold word_argument token_argument
  rcases h with h | h
  · rw [h]
    rfl
  · rw [h]
    rfl

theorem self_eq_unescape_iff (escapes : Char → Bool) (t : Text) :
    t = unescape escapes t ↔ has_escape escapes t = false := by
  rw [eq_comm, unescape_eq_self_iff]

theorem strip_quotes {t s w : Text} (hs : Text.strip_prefix t ['\''] = some s)
    (hw : Text.strip_suffix s ['\''] = some w) : t.tail.dropLast = w := by
  rw [Text.eq_append_of_strip_prefix hs, Text.eq_append_of_strip_suffix hw, List.singleton_append,
    List.tail_cons, List.dropLast_concat]

/-- A word that is read is the argument exactly when there is no escape in it. -/
theorem word_of_eq_argument_iff {child : Node} {w : Text} (h : word_of child = some w) :
    w = argument child ↔ has_escaped child = false := by
  unfold word_of at h
  unfold argument has_escaped
  split_ifs at h ⊢ with hname hword hstring hraw
  · -- the name of the command
    obtain ⟨word_node, hhead, hw⟩ := Option.bind_eq_some_iff.mp h
    split_ifs at hw with hkind
    obtain rfl := Option.some.inj hw
    rw [hhead]
    simp only [Option.elim_some, Option.any_some]
    rw [word_argument_bare (.inl hkind), self_eq_unescape_iff]
  · obtain rfl := Option.some.inj h
    rw [word_argument_bare hword, self_eq_unescape_iff]
  · have hargument : word_argument child =
        (child.children.filter fun child => child.kind = "string_content".toList).flatMap
          fun content => unescape in_double_quotes content.utf8_text := by
      unfold word_argument token_argument
      rw [hstring]
      rfl
    split at h
    · next quote content quote' hchildren =>
      split_ifs at h with hkinds
      obtain rfl := Option.some.inj h
      obtain ⟨hopen, hcontent, hclose⟩ := hkinds
      have hquote : ¬ "\"".toList = "string_content".toList := by decide
      have hfilter : [quote, content, quote'].filter
          (fun child => child.kind = "string_content".toList) = [content] := by
        simp [hopen, hcontent, hclose]
      have hany : [quote, content, quote'].any (fun content =>
          content.kind == "string_content".toList &&
            has_escape in_double_quotes content.utf8_text) =
          has_escape in_double_quotes content.utf8_text := by
        simp [hopen, hcontent, hclose]
      rw [hargument, hchildren, hfilter, hany, List.flatMap_singleton, self_eq_unescape_iff]
    · cases h
  · have hargument : word_argument child = child.utf8_text.tail.dropLast := by
      unfold word_argument token_argument
      rw [hraw]
      rfl
    obtain ⟨s, hs, hw⟩ := Option.bind_eq_some_iff.mp h
    simp [hargument, strip_quotes hs hw]

/-- A list that is read element by element is the list of these values exactly when every element
is read as its value. -/
theorem mapM_eq_map_iff {α β : Type} {f : α → Option β} (g : α → β) {xs : List α}
    {ys : List β} (h : xs.mapM f = some ys) : ys = xs.map g ↔ ∀ x ∈ xs, f x = some (g x) := by
  induction xs generalizing ys with
  | nil =>
    obtain rfl : [] = ys := Option.some.inj h
    simp
  | cons x xs ih =>
    rw [List.mapM_cons] at h
    obtain ⟨y, hy, h⟩ := Option.bind_eq_some_iff.mp h
    obtain ⟨zs, hzs, h⟩ := Option.bind_eq_some_iff.mp h
    obtain rfl : y :: zs = ys := Option.some.inj h
    rw [List.map_cons, List.cons.injEq, ih hzs, List.forall_mem_cons, hy, Option.some.injEq]

theorem exists_of_mapM {α β : Type} {f : α → Option β} {xs : List α} {ys : List β}
    (h : xs.mapM f = some ys) {x : α} (hx : x ∈ xs) : ∃ y, f x = some y := by
  induction xs generalizing ys with
  | nil => cases hx
  | cons z xs ih =>
    rw [List.mapM_cons] at h
    obtain ⟨y, hy, h⟩ := Option.bind_eq_some_iff.mp h
    obtain ⟨zs, hzs, -⟩ := Option.bind_eq_some_iff.mp h
    rcases List.mem_cons.mp hx with rfl | hx
    · exact ⟨y, hy⟩
    · exact ih hzs hx

/-- The words of a command are its argument vector exactly when no word has an escape. -/
theorem parse_plain_eq_argv_iff {cmd : Node} {words : List Text}
    (h : parse_plain_command_from_node cmd = some words) :
    words = argv cmd ↔ ∀ child ∈ cmd.named_children, has_escaped child = false := by
  unfold parse_plain_command_from_node at h
  split_ifs at h
  unfold argv
  rw [mapM_eq_map_iff argument h]
  refine forall₂_congr fun child hchild => ?_
  obtain ⟨w, hw⟩ := exists_of_mapM h hchild
  rw [hw, Option.some.injEq, word_of_eq_argument_iff hw]

/-- No word of the script has a backslash that bash removes. -/
def NoEscapes (tree : Tree) : Prop :=
  ∀ cmd ∈ simple_commands tree, ∀ child ∈ cmd.named_children, has_escaped child = false

/-- For every script whose words are extracted: the words of each command are the argument vector
that bash builds for it, and with them the decision is that on the executed commands, exactly when
no word has a backslash that bash removes. -/
theorem words_are_executed_iff {tree : Tree} {cmds : List (List Text)}
    (h : try_parse_word_only_commands_sequence tree = some cmds) :
    (cmds = (simple_commands tree).map argv ∧
      all_safe cmds = all_safe ((simple_commands tree).map argv)) ↔ NoEscapes tree := by
  have hparse := try_parse_cases h
  have hwords : cmds = (simple_commands tree).map argv ↔ NoEscapes tree := by
    rw [mapM_eq_map_iff argv hparse]
    refine forall₂_congr fun cmd hcmd => ?_
    obtain ⟨words, hw⟩ := exists_of_mapM hparse hcmd
    rw [hw, Option.some.injEq, parse_plain_eq_argv_iff hw]
  rw [← hwords]
  constructor
  · exact fun hboth => hboth.1
  · exact fun heq => ⟨heq, congrArg all_safe heq⟩

/-! ## Two scripts -/

def leaf (kind : String) (utf8_text : String) (start_byte : Nat) : Node :=
  .mk kind.toList true utf8_text.toList start_byte []

def punct (token : String) (start_byte : Nat) : Node :=
  .mk token.toList false token.toList start_byte []

/-- The tree of `echo "a b" 'c d' | wc -l`. -/
def echo_wc : Tree where
  has_error := false
  root_node := .mk "program".toList true "echo \"a b\" 'c d' | wc -l".toList 0
    [.mk "pipeline".toList true "echo \"a b\" 'c d' | wc -l".toList 0
      [.mk "command".toList true "echo \"a b\" 'c d'".toList 0
        [.mk "command_name".toList true "echo".toList 0 [leaf "word" "echo" 0],
          .mk "string".toList true "\"a b\"".toList 5
            [punct "\"" 5, leaf "string_content" "a b" 6, punct "\"" 9],
          leaf "raw_string" "'c d'" 11],
        punct "|" 17,
        .mk "command".toList true "wc -l".toList 19
          [.mk "command_name".toList true "wc".toList 19 [leaf "word" "wc" 19],
            leaf "word" "-l" 22]]]

theorem echo_wc_words_are_executed :
    NoEscapes echo_wc ∧
      [["echo".toList, "a b".toList, "c d".toList], ["wc".toList, "-l".toList]] =
        (simple_commands echo_wc).map argv := by
  have hplain : NoEscapes echo_wc := by
    unfold NoEscapes
    decide +kernel
  have hparse : try_parse_word_only_commands_sequence echo_wc =
      some [["echo".toList, "a b".toList, "c d".toList], ["wc".toList, "-l".toList]] := by
    decide +kernel
  exact ⟨hplain, ((words_are_executed_iff hparse).mpr hplain).1⟩

/-- The tree of `find . -delet\e`. -/
def find_delete : Tree where
  has_error := false
  root_node := .mk "program".toList true "find . -delet\\e".toList 0
    [.mk "command".toList true "find . -delet\\e".toList 0
      [.mk "command_name".toList true "find".toList 0 [leaf "word" "find" 0],
        leaf "word" "." 5, leaf "word" "-delet\\e" 7]]

/-- The script is safe by its words, and bash executes `find . -delete`. -/
theorem escaped_option_is_executed :
    is_known_safe_command (fun _ => some find_delete)
        ["bash".toList, "-lc".toList, "find . -delet\\e".toList] = true ∧
      try_parse_word_only_commands_sequence find_delete =
        some [["find".toList, ".".toList, "-delet\\e".toList]] ∧
      (simple_commands find_delete).map argv = [["find".toList, ".".toList, "-delete".toList]] ∧
      all_safe ((simple_commands find_delete).map argv) = false := by
  decide +kernel

end Ecode.bash
