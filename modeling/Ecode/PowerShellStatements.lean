-- The statements of a PowerShell script that the safe list accepts
-- (core/src/command_safety/windows_safe_commands.rs): those that a line break sets
-- apart are not checked one by one.
import Ecode.PowerShell

open Ecode.shell (Mode Item)

namespace Ecode.windows_safe_commands

/-! ## The word splitting at a place of the script -/

/-- The mode of the word splitting after a character, whatever the word so far. -/
def next_mode (m : Mode) (c : Char) : Mode := (shell.next (fun _ => false) m [] c).2.1

def mode_after (m : Mode) (t : Text) : Mode := t.foldl next_mode m

/-- The items that a text ends, the mode after it and the word so far. -/
def run (m : Mode) (cur : Text) : Text → List Item × Mode × Text
  | [] => ([], m, cur)
  | c :: t =>
    let out := shell.next (fun _ => false) m cur c
    let rest := run out.2.1 out.2.2 t
    (out.1 ++ rest.1, rest.2)

theorem lex_append (m : Mode) (cur p t : Text) :
    shell.plain m cur (p ++ t) =
      ((run m cur p).1 ++ (shell.plain (run m cur p).2.1 (run m cur p).2.2 t).1,
        (shell.plain (run m cur p).2.1 (run m cur p).2.2 t).2) := by
  induction p generalizing m cur with
  | nil => rfl
  | cons c p ih =>
    rw [List.cons_append, shell.plain, shell.lex_cons, ← shell.plain, ih]
    simp only [run, List.append_assoc]

theorem next_mode_eq (m : Mode) (cur : Text) (c : Char) :
    (shell.next (fun _ => false) m cur c).2.1 = next_mode m c := by
  unfold next_mode
  cases m <;> simp only [shell.next] <;> split_ifs <;> rfl

theorem run_mode (m : Mode) (cur t : Text) : (run m cur t).2.1 = mode_after m t := by
  induction t generalizing m cur with
  | nil => rfl
  | cons c t ih =>
    simp only [run]
    rw [ih, next_mode_eq]
    rfl

theorem next_blank (m : Mode) (cur : Text) (c : Char)
    (h : (shell.next (fun _ => false) m cur c).2.1 = .blank) :
    (shell.next (fun _ => false) m cur c).2.2 = [] := by
  revert h
  cases m <;> simp only [shell.next] <;> split_ifs <;> simp

/-- No word is begun where the word splitting stands between words. -/
theorem run_blank {m : Mode} {cur : Text} (t : Text) (hcur : m = .blank → cur = [])
    (h : (run m cur t).2.1 = .blank) : (run m cur t).2.2 = [] := by
  induction t generalizing m cur with
  | nil => exact hcur h
  | cons c t ih => exact ih (next_blank m cur c) h

/-- Between words the rest of a script is read as a script. -/
theorem words_append_blank {p : Text} (h : mode_after .blank p = .blank) :
    ∃ ws, shell.words p = some ws ∧
      ∀ t, shell.words (p ++ t) = (shell.words t).map (ws ++ ·) := by
  have hmode : (run .blank [] p).2.1 = .blank := (run_mode .blank [] p).trans h
  have hcur := run_blank p (fun _ => rfl) hmode
  have happend : ∀ t, shell.plain .blank [] (p ++ t) =
      ((run .blank [] p).1 ++ (shell.plain .blank [] t).1, (shell.plain .blank [] t).2) := by
    intro t
    rw [lex_append, hmode, hcur]
  have hwords : ∀ t, shell.words (p ++ t) =
      (shell.words t).map (shell.words_of (run .blank [] p).1 ++ ·) := by
    intro t
    unfold shell.words
    rw [← shell.plain, ← shell.plain, happend]
    rcases shell.plain .blank [] t with ⟨items, _ | _⟩
    · rfl
    · simp [shell.words_of_append]
  refine ⟨shell.words_of (run .blank [] p).1, ?_, hwords⟩
  have hself := hwords []
  rw [List.append_nil] at hself
  simpa [shell.words, shell.lex, shell.words_of] using hself

/-- A line feed that ends no quotes ends the word before it. -/
theorem words_append_line_feed {p : Text}
    (h : mode_after .blank p = .blank ∨ mode_after .blank p = .word ∨
      mode_after .blank p = .comment) :
    ∃ ws, shell.words p = some ws ∧
      ∀ t, shell.words (p ++ '\n' :: t) = (shell.words t).map (ws ++ ·) := by
  have hmode := run_mode .blank [] p
  -- the items that the end of the text, or a line feed, adds
  have hend : ∃ out, shell.plain (run .blank [] p).2.1 (run .blank [] p).2.2 [] = (out, true) ∧
      ∀ t, shell.plain (run .blank [] p).2.1 (run .blank [] p).2.2 ('\n' :: t) =
        (out ++ (shell.plain .blank [] t).1, (shell.plain .blank [] t).2) := by
    rw [hmode]
    rcases h with h | h | h <;> rw [h] <;> exact ⟨_, rfl, fun _ => rfl⟩
  obtain ⟨out, hnil, hfeed⟩ := hend
  refine ⟨shell.words_of ((run .blank [] p).1 ++ out), ?_, fun t => ?_⟩
  · have hself := lex_append .blank [] p []
    rw [List.append_nil, hnil] at hself
    unfold shell.words
    rw [← shell.plain, hself]
  · unfold shell.words
    rw [← shell.plain, ← shell.plain, lex_append, hfeed]
    rcases shell.plain .blank [] t with ⟨items, _ | _⟩
    · rfl
    · simp [shell.words_of_append]

/-- The text ends, or a blank comes next. -/
def ends (t : Text) : Bool := t.head?.all shell.is_blank

/-- A separator between words is a word of its own. -/
theorem words_separator {separator : Text} (h : SEPARATORS.contains separator = true) {t : Text}
    (ht : ends t = true) :
    shell.words (separator ++ t) = (shell.words t).map (separator :: ·) := by
  have hlex : shell.plain .blank [] (separator ++ t) =
      (.word separator :: (shell.plain .blank [] t).1, (shell.plain .blank [] t).2) := by
    have hrun : run .blank [] separator = ([], .word, separator) := by
      have hall : ∀ sep ∈ SEPARATORS, run .blank [] sep = ([], .word, sep) := by decide
      exact hall separator (by simpa using h)
    rw [lex_append, hrun]
    rcases t with _ | ⟨c, t⟩
    · rfl
    · have hc : shell.is_blank c = true := ht
      rw [shell.plain, shell.plain, shell.lex_cons, shell.lex_cons]
      simp [shell.next, hc]
  unfold shell.words
  rw [← shell.plain, ← shell.plain, hlex]
  rcases shell.plain .blank [] t with ⟨items, _ | _⟩
  · rfl
  · rfl

/-! ## Statements -/

/-- The separator that a text begins with, and the text after it. -/
def separator_of : Text → Option (Text × Text)
  | '\n' :: t => some (['\n'], t)
  | ';' :: t => some ([';'], t)
  | '|' :: '|' :: t => some (['|', '|'], t)
  | '|' :: t => some (['|'], t)
  | '&' :: '&' :: t => some (['&', '&'], t)
  | _ => none

/-- The same at a place of the script: quotes hold no separator, and a comment only a line feed. -/
def separator_at (m : Mode) (t : Text) : Option (Text × Text) :=
  match m with
  | .blank => separator_of t
  | .word => separator_of t
  | .comment =>
    match t with
    | '\n' :: t => some (['\n'], t)
    | _ => none
  | _ => none

/-- The text before the next separator, with that separator and the text after it. -/
def next_statement (m : Mode) : Text → Text × Option (Text × Text)
  | [] => ([], none)
  | c :: t =>
    match separator_at m (c :: t) with
    | some cut => ([], some cut)
    | none =>
      let found := next_statement (next_mode m c) t
      (c :: found.1, found.2)

/-- A statement, the separator after it, and whether that is a word between blanks. -/
structure Cut where
  statement : Text
  separator : Text
  alone : Bool
  deriving DecidableEq, Repr

/-- The statements of a script in order, with one unit of `fuel` for each. -/
def cuts : Nat → Mode → Text → List Cut
  | 0, _, t => [⟨t, [], false⟩]
  | fuel + 1, m, t =>
    let found := next_statement m t
    match found.2 with
    | none => [⟨found.1, [], false⟩]
    | some (separator, rest) =>
      let alone := mode_after m found.1 == .blank && separator != ['\n'] && ends rest
      ⟨found.1, separator, alone⟩ ::
        cuts fuel (if separator = ['\n'] ∨ alone then .blank else .word) rest

def script_cuts (script : Text) : List Cut := cuts (script.length + 1) .blank script

/-- A statement with a word. -/
def has_words (statement : Text) : Bool := shell.words statement != some []

def statements (script : Text) : List Text :=
  ((script_cuts script).map Cut.statement).filter has_words

/-- The statements between separators that are words between blanks. -/
def groups : List Cut → List (List Cut)
  | [] => []
  | cut :: rest =>
    if cut.alone then [cut] :: groups rest
    else match groups rest with
      | [] => [[cut]]
      | g :: gs => (cut :: g) :: gs

/-- A separator that touches another word, or quotes. -/
def glued (cut : Cut) : Bool := !cut.alone && cut.separator != [] && cut.separator != ['\n']

/-- The statements of a group are set apart by line breaks, or by a separator that touches a
word. -/
def set_apart (g : List Cut) : Bool :=
  g.any glued || 2 ≤ (g.filter fun cut => has_words cut.statement).length

/-- Every statement that is set apart so is split into safe commands. -/
def SetApartSafe (script : Text) : Prop :=
  ∀ g ∈ groups (script_cuts script), set_apart g = true →
    ∀ cut ∈ g, has_words cut.statement = true →
      ∃ commands, parse_powershell_script cut.statement = some commands ∧
        commands.all is_safe_powershell_command = true

example : statements "Get-ChildItem\nInvoke-WebRequest 'a;b' | sls x; # c".toList =
    ["Get-ChildItem".toList, "Invoke-WebRequest 'a;b' ".toList, " sls x".toList] := by decide

/-! ## Where the script is cut -/

theorem separator_of_eq {t separator rest : Text}
    (h : separator_of t = some (separator, rest)) :
    t = separator ++ rest ∧ (separator = ['\n'] ∨ SEPARATORS.contains separator = true) := by
  unfold separator_of at h
  split at h
  · obtain ⟨rfl, rfl⟩ := Prod.mk.inj (Option.some.inj h)
    exact ⟨rfl, .inl rfl⟩
  · obtain ⟨rfl, rfl⟩ := Prod.mk.inj (Option.some.inj h)
    exact ⟨rfl, .inr (by decide)⟩
  · obtain ⟨rfl, rfl⟩ := Prod.mk.inj (Option.some.inj h)
    exact ⟨rfl, .inr (by decide)⟩
  · obtain ⟨rfl, rfl⟩ := Prod.mk.inj (Option.some.inj h)
    exact ⟨rfl, .inr (by decide)⟩
  · obtain ⟨rfl, rfl⟩ := Prod.mk.inj (Option.some.inj h)
    exact ⟨rfl, .inr (by decide)⟩
  · cases h

/-- What a separator is at a place of the script: a line feed, or an operator outside quotes and
comments. -/
theorem separator_at_eq {m : Mode} {t separator rest : Text}
    (h : separator_at m t = some (separator, rest)) :
    t = separator ++ rest ∧
      ((separator = ['\n'] ∧ (m = .blank ∨ m = .word ∨ m = .comment)) ∨
        (SEPARATORS.contains separator = true ∧ (m = .blank ∨ m = .word))) := by
  unfold separator_at at h
  split at h
  · obtain ⟨heq, hseparator⟩ := separator_of_eq h
    exact ⟨heq, hseparator.imp (fun h => ⟨h, .inl rfl⟩) fun h => ⟨h, .inl rfl⟩⟩
  · obtain ⟨heq, hseparator⟩ := separator_of_eq h
    exact ⟨heq, hseparator.imp (fun h => ⟨h, .inr (.inl rfl)⟩) fun h => ⟨h, .inr rfl⟩⟩
  · split at h
    · obtain ⟨rfl, rfl⟩ := Prod.mk.inj (Option.some.inj h)
      exact ⟨rfl, .inl ⟨rfl, .inr (.inr rfl)⟩⟩
    · cases h
  · cases h

theorem next_statement_none {m : Mode} {t : Text} (h : (next_statement m t).2 = none) :
    (next_statement m t).1 = t := by
  induction t generalizing m with
  | nil => rfl
  | cons c t ih =>
    unfold next_statement at h ⊢
    split at h
    · cases h
    · exact congrArg (c :: ·) (ih h)

theorem next_statement_some {m : Mode} {t separator rest : Text}
    (h : (next_statement m t).2 = some (separator, rest)) :
    t = (next_statement m t).1 ++ (separator ++ rest) ∧
      ((separator = ['\n'] ∧ (mode_after m (next_statement m t).1 = .blank ∨
          mode_after m (next_statement m t).1 = .word ∨
          mode_after m (next_statement m t).1 = .comment)) ∨
        (SEPARATORS.contains separator = true ∧ (mode_after m (next_statement m t).1 = .blank ∨
          mode_after m (next_statement m t).1 = .word))) := by
  induction t generalizing m with
  | nil => cases h
  | cons c t ih =>
    unfold next_statement at h ⊢
    split at h
    · next cut hcut =>
      obtain rfl := Option.some.inj h
      exact separator_at_eq hcut
    · obtain ⟨heq, hmode⟩ := ih h
      exact ⟨congrArg (c :: ·) heq, hmode⟩

/-! ## Groups -/

def text_of (g : List Cut) : Text :=
  g.flatMap fun cut => cut.statement ++ if cut.alone then [] else cut.separator

theorem groups_alone {cut : Cut} {rest : List Cut} (h : cut.alone = true) :
    groups (cut :: rest) = [cut] :: groups rest := by
  rw [groups, if_pos h]

theorem groups_together (cut : Cut) {rest : List Cut} {g : List Cut} {gs : List (List Cut)}
    (h : cut.alone = false) (hrest : groups rest = g :: gs) :
    groups (cut :: rest) = (cut :: g) :: gs := by
  rw [groups, if_neg (by rw [h]; decide), hrest]

/-- The groups hold the cuts, each in one of them. -/
theorem groups_flatten (cs : List Cut) : (groups cs).flatten = cs := by
  induction cs with
  | nil => rfl
  | cons cut rest ih =>
    rcases halone : cut.alone with _ | _
    · rw [groups, if_neg (by rw [halone]; decide)]
      rcases hgroups : groups rest with _ | ⟨g, gs⟩
      · rw [hgroups] at ih
        simp [← ih]
      · rw [hgroups] at ih
        simp [← ih]
    · rw [groups_alone halone, List.flatten_cons, ih, List.singleton_append]

theorem mode_after_append (m : Mode) (p t : Text) :
    mode_after m (p ++ t) = mode_after (mode_after m p) t :=
  List.foldl_append

theorem mode_after_separator {m : Mode} {separator : Text}
    (h : SEPARATORS.contains separator = true) (hm : m = .blank ∨ m = .word) :
    mode_after m separator = .word := by
  have hall : ∀ sep ∈ SEPARATORS,
      mode_after .blank sep = .word ∧ mode_after .word sep = .word := by decide
  obtain ⟨hblank, hword⟩ := hall separator (by simpa using h)
  rcases hm with rfl | rfl
  · exact hblank
  · exact hword

theorem mode_after_line_feed {m : Mode} (hm : m = .blank ∨ m = .word ∨ m = .comment) :
    mode_after m ['\n'] = .blank := by
  rcases hm with rfl | rfl | rfl <;> rfl

/-- How the cuts of a text begin. -/
theorem cuts_cases (fuel : Nat) (m : Mode) (t : Text) :
    cuts (fuel + 1) m t = [⟨t, [], false⟩] ∨
    ∃ p separator rest, t = p ++ (separator ++ rest) ∧
      ((separator = ['\n'] ∧ (mode_after m p = .blank ∨ mode_after m p = .word ∨
          mode_after m p = .comment)) ∨
        (SEPARATORS.contains separator = true ∧
          (mode_after m p = .blank ∨ mode_after m p = .word))) ∧
      ((mode_after m p = .blank ∧ separator ≠ ['\n'] ∧ ends rest = true ∧
          cuts (fuel + 1) m t = ⟨p, separator, true⟩ :: cuts fuel .blank rest) ∨
        (cuts (fuel + 1) m t =
          ⟨p, separator, false⟩ :: cuts fuel (mode_after m (p ++ separator)) rest)) := by
  rcases hfound : (next_statement m t).2 with _ | ⟨separator, rest⟩
  · refine .inl ?_
    rw [cuts]
    simp only [hfound, next_statement_none hfound]
  · obtain ⟨heq, hmode⟩ := next_statement_some hfound
    refine .inr ⟨(next_statement m t).1, separator, rest, heq, hmode, ?_⟩
    rw [cuts]
    simp only [hfound]
    rcases halone : mode_after m (next_statement m t).1 == .blank && separator != ['\n'] &&
        ends rest with _ | _
    · refine .inr ?_
      rw [mode_after_append]
      rcases hmode with ⟨rfl, hm⟩ | ⟨hseparator, hm⟩
      · rw [mode_after_line_feed hm]
        rfl
      · have hne : separator ≠ ['\n'] := by
          rintro rfl
          exact absurd hseparator (by decide)
        rw [mode_after_separator hseparator hm]
        simp [hne]
    · simp only [Bool.and_eq_true, beq_iff_eq, bne_iff_ne, ne_eq] at halone
      obtain ⟨⟨hblank, hne⟩, hends⟩ := halone
      exact .inl ⟨hblank, hne, hends, by simp⟩

theorem rest_shorter {p separator rest : Text} {fuel : Nat}
    (h : separator = ['\n'] ∨ SEPARATORS.contains separator = true)
    (hfuel : (p ++ (separator ++ rest)).length < fuel + 1) : rest.length < fuel := by
  have hpos : 0 < separator.length := by
    rcases h with rfl | h
    · decide
    · rcases separator with _ | _
      · exact absurd h (by decide)
      · simp
  simp only [List.length_append] at hfuel
  omega

theorem accepts_script_append {p t : Text} {ws : List Text} (hp : shell.words p = some ws)
    {separator : Text} (hseparator : SEPARATORS.contains separator = true)
    (h : shell.words (p ++ (separator ++ t)) = (shell.words t).map (ws ++ separator :: ·)) :
    accepts_script (p ++ (separator ++ t)) = (accepts_script p && accepts_script t) := by
  unfold accepts_script
  rw [h, hp]
  rcases shell.words t with _ | ws'
  · simp
  · exact accepts_append_separator ws ws' hseparator

/-- A script is accepted exactly when all its groups are, and what stands before counts with the
first of them. -/
theorem accepts_groups {fuel : Nat} {m : Mode} {t : Text} (hfuel : t.length < fuel) (before : Text)
    (hm : mode_after .blank before = m) :
    ∃ g gs, groups (cuts fuel m t) = g :: gs ∧
      accepts_script (before ++ t) =
        (accepts_script (before ++ text_of g) && gs.all fun g => accepts_script (text_of g)) := by
  induction fuel generalizing m t before with
  | zero => omega
  | succ fuel ih =>
    rcases cuts_cases fuel m t with hcuts | ⟨p, separator, rest, rfl, hmode, hcuts⟩
    · refine ⟨[⟨t, [], false⟩], [], by rw [hcuts]; rfl, ?_⟩
      simp [text_of]
    have hshort : rest.length < fuel :=
      rest_shorter (hmode.imp And.left And.left) hfuel
    rcases hcuts with ⟨hblank, hne, hends, hcuts⟩ | hcuts
    · -- the separator is a word between blanks: both sides are accepted for themselves
      have hseparator : SEPARATORS.contains separator = true :=
        hmode.elim (fun h => absurd h.1 hne) And.left
      have hbefore : mode_after .blank (before ++ p) = .blank := by
        rw [mode_after_append, hm, hblank]
      obtain ⟨ws, hws, happend⟩ := words_append_blank hbefore
      obtain ⟨g, gs, hgroups, haccepts⟩ := ih (m := .blank) hshort [] rfl
      refine ⟨[⟨p, separator, true⟩], g :: gs, by rw [hcuts, groups_alone rfl, hgroups], ?_⟩
      have hwords : shell.words (before ++ p ++ (separator ++ rest)) =
          (shell.words rest).map (ws ++ separator :: ·) := by
        rw [happend, words_separator hseparator hends, Option.map_map]
        rfl
      rw [← List.append_assoc, accepts_script_append hws hseparator hwords]
      rw [List.nil_append, List.nil_append] at haccepts
      rw [haccepts, List.all_cons]
      simp [text_of]
    · obtain ⟨g, gs, hgroups, haccepts⟩ := ih hshort (before ++ (p ++ separator)) (by
        rw [mode_after_append, hm])
      have hcons := groups_together ⟨p, separator, false⟩ rfl hgroups
      refine ⟨⟨p, separator, false⟩ :: g, gs, by rw [hcuts, hcons], ?_⟩
      have htext : before ++ (p ++ (separator ++ rest)) = before ++ (p ++ separator) ++ rest := by
        simp
      rw [htext, haccepts]
      simp [text_of]

/-- The words of a group whose statements only line breaks set apart are those of its statements,
one after the other. -/
def InLines (g : List Cut) : Prop :=
  g.any glued = false → ∀ ws, shell.words (text_of g) = some ws →
    ∃ wss, g.mapM (fun cut => shell.words cut.statement) = some wss ∧ ws = wss.flatten

theorem in_lines_single {cut : Cut} (h : text_of [cut] = cut.statement) : InLines [cut] := by
  intro _ ws hws
  rw [h] at hws
  exact ⟨[ws], by simp [hws], by simp⟩

theorem groups_in_lines {fuel : Nat} {m : Mode} {t : Text} (hfuel : t.length < fuel) :
    ∃ g gs, groups (cuts fuel m t) = g :: gs ∧ (m = .blank → InLines g) ∧
      ∀ g ∈ gs, InLines g := by
  induction fuel generalizing m t with
  | zero => omega
  | succ fuel ih =>
    rcases cuts_cases fuel m t with hcuts | ⟨p, separator, rest, rfl, hmode, hcuts⟩
    · refine ⟨[⟨t, [], false⟩], [], by rw [hcuts]; rfl, fun _ => ?_, by simp⟩
      exact in_lines_single (by simp [text_of])
    have hshort : rest.length < fuel :=
      rest_shorter (hmode.imp And.left And.left) hfuel
    rcases hcuts with ⟨-, -, -, hcuts⟩ | hcuts
    · obtain ⟨g, gs, hgroups, hfirst, hrest⟩ := ih (m := .blank) hshort
      refine ⟨[⟨p, separator, true⟩], g :: gs, by rw [hcuts, groups_alone rfl, hgroups],
        fun _ => in_lines_single (by simp [text_of]), ?_⟩
      exact List.forall_mem_cons.mpr ⟨hfirst rfl, hrest⟩
    · obtain ⟨g, gs, hgroups, hfirst, hrest⟩ := ih (m := mode_after m (p ++ separator)) hshort
      have hcons := groups_together ⟨p, separator, false⟩ rfl hgroups
      refine ⟨⟨p, separator, false⟩ :: g, gs, by rw [hcuts, hcons], ?_, hrest⟩
      rintro rfl hglued ws hws
      rw [List.any_cons, Bool.or_eq_false_iff] at hglued
      rcases hmode with ⟨rfl, hm⟩ | ⟨hseparator, -⟩
      · -- a line break: the words of the line come before those of the other lines
        obtain ⟨line, hline, hwords⟩ := words_append_line_feed hm
        have htext : text_of (⟨p, ['\n'], false⟩ :: g) = p ++ '\n' :: text_of g := by
          simp [text_of]
        rw [htext, hwords] at hws
        obtain ⟨ws', hws', rfl⟩ := Option.map_eq_some_iff.mp hws
        have hblank : mode_after .blank (p ++ ['\n']) = .blank := by
          rw [mode_after_append, mode_after_line_feed hm]
        obtain ⟨wss, hwss, rfl⟩ := hfirst hblank hglued.2 ws' hws'
        exact ⟨line :: wss, by simp [List.mapM_cons, hline, hwss], by simp⟩
      · have hne : separator ≠ ['\n'] ∧ separator ≠ [] := by
          constructor
          · rintro rfl
            exact absurd hseparator (by decide)
          · rintro rfl
            exact absurd hseparator (by decide)
        simp [glued, hne] at hglued

/-! ## Every statement of an accepted script -/

theorem flatten_of_no_words {g : List Cut} {wss : List (List Text)}
    (h : g.mapM (fun cut => shell.words cut.statement) = some wss)
    (hnone : ∀ cut ∈ g, shell.words cut.statement = some []) : wss.flatten = [] := by
  induction g generalizing wss with
  | nil =>
    obtain rfl : [] = wss := Option.some.inj h
    rfl
  | cons cut g ih =>
    rw [List.mapM_cons] at h
    obtain ⟨ws, hws, h⟩ := Option.bind_eq_some_iff.mp h
    obtain ⟨wss', hwss', h⟩ := Option.bind_eq_some_iff.mp h
    obtain rfl : ws :: wss' = wss := Option.some.inj h
    obtain rfl : ws = [] := Option.some.inj (hws.symm.trans (hnone cut List.mem_cons_self))
    rw [List.flatten_cons, List.nil_append]
    exact ih hwss' fun other hother => hnone other (List.mem_cons_of_mem _ hother)

/-- The only statement of a group with words has all the words of the group. -/
theorem only_statement {g : List Cut} {wss : List (List Text)}
    (h : g.mapM (fun cut => shell.words cut.statement) = some wss) {cut : Cut} (hcut : cut ∈ g)
    (hwords : has_words cut.statement = true)
    (honly : ¬ 2 ≤ (g.filter fun cut => has_words cut.statement).length) :
    shell.words cut.statement = some wss.flatten := by
  induction g generalizing wss with
  | nil => cases hcut
  | cons other g ih =>
    rw [List.mapM_cons] at h
    obtain ⟨ws, hws, h⟩ := Option.bind_eq_some_iff.mp h
    obtain ⟨wss', hwss', h⟩ := Option.bind_eq_some_iff.mp h
    obtain rfl : ws :: wss' = wss := Option.some.inj h
    rw [List.filter_cons] at honly
    rcases List.mem_cons.mp hcut with rfl | hcut
    · -- the other statements have no words
      rw [if_pos hwords, List.length_cons] at honly
      have hnone : ∀ other ∈ g, shell.words other.statement = some [] := by
        intro other hother
        have hfilter : g.filter (fun cut => has_words cut.statement) = [] := by
          rw [← List.length_eq_zero_iff]
          omega
        have hblank := List.filter_eq_nil_iff.mp hfilter other hother
        simpa [has_words] using hblank
      rw [hws, List.flatten_cons, flatten_of_no_words hwss' hnone, List.append_nil]
    · rcases hother : has_words other.statement with _ | _
      · have hnil : ws = [] := by
          simp only [has_words, hws] at hother
          simpa using hother
        rw [hother] at honly
        rw [ih hwss' hcut honly, hnil, List.flatten_cons, List.nil_append]
      · rw [if_pos hother, List.length_cons] at honly
        have hfilter : cut ∈ g.filter (fun cut => has_words cut.statement) :=
          List.mem_filter.mpr ⟨hcut, hwords⟩
        have hpos := List.length_pos_of_mem hfilter
        omega

/-- The groups of a script that is accepted are accepted. -/
theorem accepted_groups {script : Text} (h : accepts_script script = true) :
    (∀ g ∈ groups (script_cuts script), accepts_script (text_of g) = true) ∧
      ∀ g ∈ groups (script_cuts script), InLines g := by
  have hfuel : script.length < script.length + 1 := Nat.lt_succ_self _
  obtain ⟨g, gs, hgroups, haccepts⟩ := accepts_groups (m := .blank) hfuel [] rfl
  obtain ⟨g', gs', hgroups', hfirst, hrest⟩ := groups_in_lines (m := .blank) hfuel
  rw [List.nil_append, List.nil_append, h] at haccepts
  have hboth := (Bool.and_eq_true _ _).mp haccepts.symm
  unfold script_cuts
  constructor
  · rw [hgroups]
    exact List.forall_mem_cons.mpr ⟨hboth.1, fun g hg => List.all_eq_true.mp hboth.2 g hg⟩
  · rw [hgroups']
    exact List.forall_mem_cons.mpr ⟨hfirst rfl, hrest⟩

theorem mem_statements {script statement : Text} :
    statement ∈ statements script ↔ ∃ g ∈ groups (script_cuts script), ∃ cut ∈ g,
      has_words cut.statement = true ∧ cut.statement = statement := by
  unfold statements
  rw [List.mem_filter, List.mem_map]
  constructor
  · rintro ⟨⟨cut, hcut, rfl⟩, hwords⟩
    rw [← groups_flatten (script_cuts script)] at hcut
    obtain ⟨g, hg, hcut⟩ := List.mem_flatten.mp hcut
    exact ⟨g, hg, cut, hcut, hwords, rfl⟩
  · rintro ⟨g, hg, cut, hcut, hwords, rfl⟩
    refine ⟨⟨cut, ?_, rfl⟩, hwords⟩
    rw [← groups_flatten (script_cuts script)]
    exact List.mem_flatten.mpr ⟨g, hg, hcut⟩

/-- For every invocation with a script that is accepted: every statement of the script is accepted
exactly when those are that only a line break, or a separator that touches a word, sets apart. -/
theorem statements_are_accepted_iff (i : Invocation) (script : Text)
    (h : is_safe_command_windows (i.command script) = true) :
    (∀ statement ∈ statements script,
      is_safe_command_windows (i.command statement) = true) ↔ SetApartSafe script := by
  rw [i.is_safe_eq] at h
  obtain ⟨haccepts, hlines⟩ := accepted_groups h
  have hstatement : ∀ statement, is_safe_command_windows (i.command statement) = true ↔
      ∃ commands, parse_powershell_script statement = some commands ∧
        commands.all is_safe_powershell_command = true := by
    intro statement
    rw [i.is_safe_eq, accepts_script_eq]
    rcases parse_powershell_script statement with _ | commands
    · simp
    · simp
  constructor
  · intro hall g hg _ cut hcut hwords
    rw [← hstatement]
    exact hall _ (mem_statements.mpr ⟨g, hg, cut, hcut, hwords, rfl⟩)
  · intro hsafe statement hmem
    obtain ⟨g, hg, cut, hcut, hwords, rfl⟩ := mem_statements.mp hmem
    rcases hapart : set_apart g with _ | _
    · -- nothing in the group is set apart: it has this statement only
      simp only [set_apart, Bool.or_eq_false_iff, decide_eq_false_iff_not] at hapart
      obtain ⟨hglued, honly⟩ := hapart
      have haccepted := haccepts g hg
      unfold accepts_script at haccepted
      rcases htext : shell.words (text_of g) with _ | ws
      · rw [htext] at haccepted
        cases haccepted
      · rw [htext] at haccepted
        obtain ⟨wss, hwss, rfl⟩ := hlines g hg hglued ws htext
        rw [i.is_safe_eq, accepts_script, only_statement hwss hcut hwords honly]
        exact haccepted
    · exact (hstatement _).mpr (hsafe g hg hapart cut hcut hwords)

/-! ## Two scripts -/

def pwsh : Invocation where
  exe := "pwsh".toList
  exe_ok := by decide
  flags := ["-NoLogo".toList]
  flags_ok := by decide
  switch := .apart "-Command".toList (by decide)

instance (script : Text) : Decidable (SetApartSafe script) :=
  decidable_of_iff
    (∀ g ∈ groups (script_cuts script), set_apart g = true → ∀ cut ∈ g,
      has_words cut.statement = true → ((parse_powershell_script cut.statement).any
        (·.all is_safe_powershell_command)) = true)
    (by simp [SetApartSafe, Option.any_eq_true])

def two_lines : Text := "Get-ChildItem src\nGet-Location ; git status".toList

theorem two_lines_statements_are_accepted :
    ((statements two_lines).all fun statement =>
      is_safe_command_windows (pwsh.command statement)) = true :=
  List.all_eq_true.mpr
    ((statements_are_accepted_iff pwsh two_lines (by decide +kernel)).mpr (by decide +kernel))

/-- The second line is taken for arguments of the first. -/
theorem second_line_is_not_checked :
    is_safe_command_windows
        (pwsh.command "Get-ChildItem\nInvoke-WebRequest https://example.com".toList) = true ∧
      statements "Get-ChildItem\nInvoke-WebRequest https://example.com".toList =
        ["Get-ChildItem".toList, "Invoke-WebRequest https://example.com".toList] ∧
      is_safe_command_windows
        (pwsh.command "Invoke-WebRequest https://example.com".toList) = false := by
  decide +kernel

end Ecode.windows_safe_commands
