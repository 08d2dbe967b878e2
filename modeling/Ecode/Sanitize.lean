-- The output of commands before it is shown (tui/src/sanitize.rs): which characters can still drive
-- the terminal.
import Ecode.TextLines

namespace Ecode.sanitize

/-! ## The functions -/

inductive Mode where
  | Plain
  | AnsiPreserving
  deriving DecidableEq

structure Options where
  expand_tabs : Bool
  tabstop : Nat
  debug_markers : Bool

def ESC : Char := Char.ofNat 0x1B

def BEL : Char := Char.ofNat 0x07

def MARKER : Char := Char.ofNat 0xB7

def between (low high : Nat) (c : Char) : Bool := low ≤ c.toNat && c.toNat ≤ high

def is_c1 (c : Char) : Bool := between 0x80 0x9F c

def is_zero_width_or_bidi (c : Char) : Bool :=
  decide (c.toNat ∈ [0x200B, 0x200C, 0x200D, 0x2060, 0xFEFF, 0x00AD, 0x180E, 0x200E, 0x200F, 0x061C,
    0x202A, 0x202B, 0x202D, 0x202E, 0x202C, 0x2066, 0x2067, 0x2068, 0x2069])

def is_final (c : Char) : Bool := between 0x40 0x7E c

def is_intermediate (c : Char) : Bool := between 0x20 0x2F c

def consume_until_st_or_bel : Text → Text
  | [] => []
  | c :: it =>
    if c = BEL then it
    else if c = ESC then
      match it with
      | '\\' :: it => it
      | it => consume_until_st_or_bel it
    else consume_until_st_or_bel it

/-- A CSI sequence behind its introducer, up to its final character, and what is after it. -/
def csi : Text → Text × Text
  | [] => ([], [])
  | c :: it =>
    if is_final c then ([c], it)
    else
      let (body, it) := csi it
      (c :: body, it)

/-- Behind another escape: the intermediates and the final character are skipped. -/
def skip_escape (it : Text) : Text :=
  match it.dropWhile is_intermediate with
  | c :: rest => if is_final c then rest else c :: rest
  | [] => []

theorem consume_length (it : Text) : (consume_until_st_or_bel it).length ≤ it.length := by
  induction it with
  | nil => exact Nat.le_refl _
  | cons c it ih =>
    unfold consume_until_st_or_bel
    split_ifs
    · simp
    · split
      · simp only [List.length_cons]
        omega
      · exact Nat.le_succ_of_le ih
    · exact Nat.le_succ_of_le ih

theorem csi_length (it : Text) : (csi it).2.length ≤ it.length := by
  induction it with
  | nil => exact Nat.le_refl _
  | cons c it ih =>
    unfold csi
    split
    · simp
    · exact Nat.le_succ_of_le ih

theorem skip_escape_length (it : Text) : (skip_escape it).length ≤ it.length := by
  have hle := (List.dropWhile_suffix is_intermediate (l := it)).length_le
  unfold skip_escape
  split
  · rename_i c rest hrest
    rw [hrest, List.length_cons] at hle
    split
    · omega
    · exact hle
  · exact Nat.zero_le _

/-- The loop over the characters. -/
def strip_loop (mode : Mode) (debug_markers : Bool) : Text → Text
  | [] => []
  | ch :: it =>
    let marked := if debug_markers then [MARKER] else []
    if ch = ESC then
      match it with
      | '[' :: it =>
        have := csi_length it
        if mode = .AnsiPreserving then
          ESC :: '[' :: (csi it).1 ++ strip_loop mode debug_markers (csi it).2
        else strip_loop mode debug_markers (csi it).2
      | ']' :: it | 'P' :: it | 'X' :: it | '^' :: it | '_' :: it =>
        have := consume_length it
        marked ++ strip_loop mode debug_markers (consume_until_st_or_bel it)
      | it =>
        have := skip_escape_length it
        strip_loop mode debug_markers (skip_escape it)
    else if ch = '\n' then '\n' :: strip_loop mode debug_markers it
    else if ch.toNat < 0x20 || ch.toNat == 0x7F then marked ++ strip_loop mode debug_markers it
    else if is_c1 ch then marked ++ strip_loop mode debug_markers it
    else if is_zero_width_or_bidi ch then marked ++ strip_loop mode debug_markers it
    else ch :: strip_loop mode debug_markers it
termination_by it => it.length
decreasing_by all_goals simp only [List.length_cons]; omega

def strip_specials (input : Text) (mode : Mode) (debug_markers : Bool) : Text :=
  strip_loop mode debug_markers input

def is_ascii (c : Char) : Bool := c.toNat < 0x80

def force_ascii (input : Text) : Text :=
  if input.all is_ascii then input else input.map fun ch => if is_ascii ch then ch else '?'

section

-- `UnicodeWidthChar::width`, and the variable CODEX_TUI_ASCII.
variable (width : Char → Option Nat) (ascii_only_enabled : Bool)

/-- The characters of one line from a column on. -/
def expand_line (ts : Nat) : Nat → Text → Text
  | _, [] => []
  | col, ch :: line =>
    if ch = '\t' then
      let spaces := ts - col % ts
      List.replicate spaces ' ' ++ expand_line ts (col + spaces) line
    else if ch = '\n' then '\n' :: expand_line ts 0 line
    else ch :: expand_line ts (col + max ((width ch).getD 1) 1) line

def expand_tabs_to_spaces (input : Text) (tabstop : Nat) : Text :=
  (Text.split_inclusive input).flatMap (expand_line width (max tabstop 1) 0)

def sanitize_for_tui (input : Text) (mode : Mode) (opts : Options) : Text :=
  let text := if opts.expand_tabs then expand_tabs_to_spaces width input opts.tabstop else input
  let text := strip_specials text mode opts.debug_markers
  if ascii_only_enabled then force_ascii text else text

end

/-! ## What can drive the terminal -/

/-- A control, C1, DEL, zero-width or bidi character. -/
def is_special (c : Char) : Bool :=
  c.toNat < 0x20 || c.toNat == 0x7F || is_c1 c || is_zero_width_or_bidi c

/-- A parameter or intermediate of a CSI sequence. -/
def is_param (c : Char) : Bool := between 0x20 0x3F c

/-- Nothing but line feeds. -/
def PlainSafe (text : Text) : Prop := ∀ c ∈ text, is_special c = true → c = '\n'

/-- What follows ESC is a CSI sequence that is complete or goes to the end of the text. -/
def BeginsCsi (after : Text) : Prop :=
  ∃ body rest, after = '[' :: (body ++ rest) ∧ (∀ b ∈ body, is_param b = true) ∧
    (rest = [] ∨ ∃ final more, rest = final :: more ∧ is_final final = true)

/-- Nothing but line feeds, and ESC where it begins a CSI sequence. -/
def AnsiSafe (text : Text) : Prop :=
  ∀ before c after, text = before ++ c :: after → is_special c = true → c ≠ '\n' →
    c = ESC ∧ BeginsCsi after

/-! ## Pieces -/

/-- What the scan takes at once. -/
inductive Piece where
  | csi (body : Text)
  | dropped (marked : Bool)
  | char (c : Char)

def next_piece (ch : Char) (it : Text) : Piece × Text :=
  if ch = ESC then
    match it with
    | '[' :: it => (.csi (csi it).1, (csi it).2)
    | ']' :: it | 'P' :: it | 'X' :: it | '^' :: it | '_' :: it =>
      (.dropped true, consume_until_st_or_bel it)
    | it => (.dropped false, skip_escape it)
  else if ch = '\n' || !is_special ch then (.char ch, it)
  else (.dropped true, it)

theorem next_piece_length (ch : Char) (it : Text) : (next_piece ch it).2.length ≤ it.length := by
  have hcsi (it : Text) := Nat.le_succ_of_le (csi_length it)
  have hconsume (it : Text) := Nat.le_succ_of_le (consume_length it)
  unfold next_piece
  split_ifs
  · split
    · exact hcsi _
    · exact hconsume _
    · exact hconsume _
    · exact hconsume _
    · exact hconsume _
    · exact hconsume _
    · exact skip_escape_length _
  · exact Nat.le_refl _
  · exact Nat.le_refl _

/-- A text in pieces. -/
def pieces : Text → List Piece
  | [] => []
  | ch :: it =>
    have := next_piece_length ch it
    (next_piece ch it).1 :: pieces (next_piece ch it).2
termination_by text => text.length
decreasing_by simp only [List.length_cons]; omega

def Piece.emit (mode : Mode) (debug_markers : Bool) : Piece → Text
  | .csi body => if mode = .AnsiPreserving then ESC :: '[' :: body else []
  | .dropped marked => if marked && debug_markers then [MARKER] else []
  | .char c => [c]

theorem strip_loop_cons (mode : Mode) (debug_markers : Bool) (ch : Char) (it : Text) :
    strip_loop mode debug_markers (ch :: it) =
      (next_piece ch it).1.emit mode debug_markers ++
        strip_loop mode debug_markers (next_piece ch it).2 := by
  conv => lhs; unfold strip_loop
  dsimp only
  unfold next_piece
  by_cases hesc : ch = ESC
  · rw [if_pos hesc, if_pos hesc]
    split
    · cases mode <;> simp [Piece.emit]
    · simp [Piece.emit]
    · simp [Piece.emit]
    · simp [Piece.emit]
    · simp [Piece.emit]
    · simp [Piece.emit]
    · simp [Piece.emit]
  · rw [if_neg hesc, if_neg hesc]
    by_cases hline : ch = '\n'
    · simp [Piece.emit, hline]
    rw [if_neg hline]
    have hline' : decide (ch = '\n') = false := decide_eq_false hline
    rw [hline', Bool.false_or]
    unfold is_special
    cases decide (ch.toNat < 0x20) || ch.toNat == 0x7F with
    | true => simp [Piece.emit]
    | false => cases is_c1 ch <;> cases is_zero_width_or_bidi ch <;> simp [Piece.emit]

theorem strip_loop_eq (mode : Mode) (debug_markers : Bool) (text : Text) :
    strip_loop mode debug_markers text =
      (pieces text).flatMap (Piece.emit mode debug_markers) := by
  induction hn : text.length using Nat.strong_induction_on generalizing text with
  | h n ih =>
    subst hn
    cases text with
    | nil => simp [strip_loop, pieces]
    | cons ch it =>
      rw [strip_loop_cons, pieces, List.flatMap_cons,
        ih _ (Nat.lt_succ_of_le (next_piece_length ch it)) _ rfl]

/-- Every character that is taken alone may be shown. A CSI sequence ends with its only final
character, or it has none and is the last piece. -/
def WellFormed : List Piece → Prop
  | [] => True
  | .char c :: ps => (c = '\n' ∨ is_special c = false) ∧ WellFormed ps
  | .dropped _ :: ps => WellFormed ps
  | .csi body :: ps =>
    (∀ c ∈ body.dropLast, is_final c = false) ∧
      ((∃ c, body.getLast? = some c ∧ is_final c = true) ∨
        (∀ c ∈ body, is_final c = false) ∧ ps = []) ∧
      WellFormed ps

theorem csi_cases (it : Text) :
    (∀ c ∈ (csi it).1.dropLast, is_final c = false) ∧
      ((∃ c, (csi it).1.getLast? = some c ∧ is_final c = true) ∨
        (∀ c ∈ (csi it).1, is_final c = false) ∧ (csi it).2 = []) := by
  induction it with
  | nil => simp [csi]
  | cons c it ih =>
    unfold csi
    split
    · rename_i hfinal
      exact ⟨by simp, .inl ⟨c, rfl, hfinal⟩⟩
    · rename_i hfinal
      rw [Bool.not_eq_true] at hfinal
      obtain ⟨hbefore, hend⟩ := ih
      dsimp only
      cases hbody : (csi it).1 with
      | nil =>
        rw [hbody] at hend
        refine ⟨by simp, .inr ⟨by simp [hfinal], ?_⟩⟩
        simpa using hend
      | cons d body =>
        rw [hbody] at hbefore hend
        rw [List.dropLast_cons_of_ne_nil (List.cons_ne_nil d body)]
        refine ⟨List.forall_mem_cons.mpr ⟨hfinal, hbefore⟩, ?_⟩
        rcases hend with ⟨e, he, hlast⟩ | ⟨hnone, hrest⟩
        · exact .inl ⟨e, by simpa using he, hlast⟩
        · exact .inr ⟨List.forall_mem_cons.mpr ⟨hfinal, hnone⟩, hrest⟩

theorem pieces_nil_of_nil : pieces [] = [] := by
  rw [pieces]

theorem pieces_wellFormed (text : Text) : WellFormed (pieces text) := by
  induction hn : text.length using Nat.strong_induction_on generalizing text with
  | h n ih =>
    subst hn
    cases text with
    | nil =>
      rw [pieces_nil_of_nil]
      trivial
    | cons ch it =>
      have hrest := ih _ (Nat.lt_succ_of_le (next_piece_length ch it)) _ rfl
      rw [pieces]
      revert hrest
      unfold next_piece
      split_ifs with hesc htext
      · split
        · rename_i it
          intro hrest
          obtain ⟨hbefore, hend⟩ := csi_cases it
          refine ⟨hbefore, hend.imp_right fun h => ⟨h.1, ?_⟩, hrest⟩
          rw [h.2, pieces_nil_of_nil]
        · exact id
        · exact id
        · exact id
        · exact id
        · exact id
        · exact id
      · intro hrest
        exact ⟨by simpa using htext, hrest⟩
      · exact id

/-! ## Characters -/

/-- A character as it is sent: with ASCII only, the others are question marks. -/
def sent (ascii_only : Bool) (c : Char) : Char := if ascii_only && !is_ascii c then '?' else c

theorem between_iff {low high : Nat} {c : Char} :
    between low high c = true ↔ low ≤ c.toNat ∧ c.toNat ≤ high := by
  simp [between]

theorem zero_width_large {c : Char} (h : is_zero_width_or_bidi c = true) : 0xAD ≤ c.toNat := by
  simp only [is_zero_width_or_bidi, decide_eq_true_eq, List.mem_cons, List.not_mem_nil,
    or_false] at h
  omega

/-- The printable characters of ASCII are not special. -/
theorem not_special_of_printable {c : Char} (h : between 0x20 0x7E c = true) :
    is_special c = false := by
  rw [between_iff] at h
  rw [Bool.eq_false_iff]
  intro hspecial
  simp only [is_special, is_c1, Bool.or_eq_true, decide_eq_true_eq, beq_iff_eq,
    between_iff] at hspecial
  rcases hspecial with ((hlow | hdel) | hc1) | hzero
  · omega
  · omega
  · omega
  · have hlarge := zero_width_large hzero
    omega

theorem not_special_of_param {c : Char} (h : is_param c = true) : is_special c = false := by
  apply not_special_of_printable
  simp only [is_param, between_iff] at h ⊢
  omega

theorem not_special_of_final {c : Char} (h : is_final c = true) : is_special c = false := by
  apply not_special_of_printable
  simp only [is_final, between_iff] at h ⊢
  omega

theorem sent_of_final {ascii_only : Bool} {c : Char} (h : is_final c = true) :
    sent ascii_only c = c := by
  have hascii : is_ascii c = true := by
    simp only [is_final, between_iff] at h
    simp only [is_ascii, decide_eq_true_eq]
    omega
  simp [sent, hascii]

theorem final_of_sent {ascii_only : Bool} {c : Char} (h : is_final (sent ascii_only c) = true) :
    is_final c = true := by
  unfold sent at h
  split at h
  · exact absurd h (by decide)
  · exact h

theorem special_of_sent {ascii_only : Bool} {c : Char}
    (h : is_special (sent ascii_only c) = true) : is_special c = true ∧ sent ascii_only c = c := by
  unfold sent at h ⊢
  split at h
  · exact absurd h (by decide)
  · rename_i hkept
    exact ⟨h, if_neg hkept⟩

theorem map_sent_eq_self {ascii_only : Bool} {text : Text}
    (h : ∀ c ∈ text, sent ascii_only c = c) : text.map (sent ascii_only) = text :=
  (List.map_congr_left (g := fun c => c) h).trans (List.map_id' text)

theorem sent_sent (ascii_only : Bool) (c : Char) :
    sent ascii_only (sent ascii_only c) = sent ascii_only c := by
  have hquestion : is_ascii '?' = true := rfl
  unfold sent
  cases hkept : ascii_only && !is_ascii c with
  | true => simp [hquestion]
  | false => simp [hkept]

theorem force_ascii_eq (ascii_only : Bool) (text : Text) :
    (if ascii_only then force_ascii text else text) = text.map (sent ascii_only) := by
  cases ascii_only with
  | false => exact (map_sent_eq_self fun c _ => by simp [sent]).symm
  | true =>
    rw [if_pos rfl, force_ascii]
    split
    · rename_i hall
      refine (map_sent_eq_self fun c hc => ?_).symm
      simp [sent, List.all_eq_true.mp hall c hc]
    · refine List.map_congr_left fun c _ => ?_
      cases h : is_ascii c <;> simp [sent, h]

/-! ## Plain -/

theorem plain_of_wellFormed {debug_markers : Bool} {ps : List Piece} (h : WellFormed ps) :
    ∀ c ∈ ps.flatMap (Piece.emit .Plain debug_markers), is_special c = true → c = '\n' := by
  have hmarker : is_special MARKER = false := by decide
  induction ps with
  | nil => simp
  | cons p ps ih =>
    intro c hc hspecial
    rw [List.flatMap_cons, List.mem_append] at hc
    rcases hc with hc | hc
    · cases p with
      | csi body => simp [Piece.emit] at hc
      | dropped marked =>
        simp only [Piece.emit] at hc
        split at hc
        · obtain rfl := List.mem_singleton.mp hc
          rw [hmarker] at hspecial
          cases hspecial
        · cases hc
      | char d =>
        obtain rfl := List.mem_singleton.mp hc
        exact h.1.resolve_right (by simp [hspecial])
    · cases p with
      | csi body => exact ih h.2.2 c hc hspecial
      | dropped marked => exact ih h c hc hspecial
      | char d => exact ih h.2 c hc hspecial

/-- A text with no special character but line feeds is in pieces of one character. -/
theorem strip_loop_fixed {mode : Mode} {debug_markers : Bool} {text : Text} (h : PlainSafe text) :
    strip_loop mode debug_markers text = text := by
  induction text with
  | nil => rw [strip_loop]
  | cons c text ih =>
    have hesc : c ≠ ESC := by
      rintro rfl
      exact absurd (h ESC List.mem_cons_self (by decide)) (by decide)
    have htext : (decide (c = '\n') || !is_special c) = true := by
      cases hspecial : is_special c with
      | false => simp
      | true => simp [h c List.mem_cons_self hspecial]
    rw [strip_loop_cons]
    unfold next_piece
    rw [if_neg hesc, if_pos htext]
    exact congrArg (c :: ·) (ih fun d hd => h d (List.mem_cons_of_mem _ hd))

theorem expand_line_fixed {width : Char → Option Nat} {ts : Nat} {line : Text} (col : Nat)
    (h : '\t' ∉ line) : expand_line width ts col line = line := by
  induction line generalizing col with
  | nil => rfl
  | cons c line ih =>
    have hc : c ≠ '\t' := fun heq => h (heq ▸ List.mem_cons_self)
    have hline : '\t' ∉ line := fun hmem => h (List.mem_cons_of_mem _ hmem)
    unfold expand_line
    rw [if_neg hc]
    split
    · rename_i hnl
      rw [ih _ hline, hnl]
    · rw [ih _ hline]

theorem flatten_split_inclusive (text : Text) : (Text.split_inclusive text).flatten = text := by
  induction text with
  | nil => rfl
  | cons c text ih =>
    unfold Text.split_inclusive
    split
    · rename_i hc
      simp [hc, ih]
    · split
      · rename_i hnil
        rw [hnil] at ih
        simp [← ih]
      · rename_i p ps hps
        rw [hps] at ih
        simp [← ih]

theorem expand_tabs_fixed {width : Char → Option Nat} {tabstop : Nat} {text : Text}
    (h : '\t' ∉ text) : expand_tabs_to_spaces width text tabstop = text := by
  have hlines : ∀ line ∈ Text.split_inclusive text,
      expand_line width (max tabstop 1) 0 line = line := by
    intro line hline
    apply expand_line_fixed
    intro hmem
    apply h
    rw [← flatten_split_inclusive text]
    exact List.mem_flatten.mpr ⟨line, hline, hmem⟩
  rw [expand_tabs_to_spaces, List.flatMap_def, List.map_congr_left (g := fun l => l) hlines,
    List.map_id', flatten_split_inclusive]

theorem sanitize_eq (width : Char → Option Nat) (ascii_only_enabled : Bool) (input : Text)
    (mode : Mode) (tabstop : Nat) (debug_markers : Bool) :
    sanitize_for_tui width ascii_only_enabled input mode ⟨true, tabstop, debug_markers⟩ =
      (strip_loop mode debug_markers (expand_tabs_to_spaces width input tabstop)).map
        (sent ascii_only_enabled) :=
  force_ascii_eq ascii_only_enabled _

theorem sanitize_plain (width : Char → Option Nat) (ascii_only_enabled : Bool) (input : Text)
    (tabstop : Nat) (debug_markers : Bool) :
    PlainSafe
      (sanitize_for_tui width ascii_only_enabled input .Plain ⟨true, tabstop, debug_markers⟩) := by
  intro c hc hspecial
  rw [sanitize_eq, strip_loop_eq] at hc
  obtain ⟨d, hd, rfl⟩ := List.mem_map.mp hc
  obtain ⟨hd', hsame⟩ := special_of_sent hspecial
  rw [hsame]
  exact plain_of_wellFormed (pieces_wellFormed _) d hd hd'

theorem sanitize_again (width : Char → Option Nat) (ascii_only_enabled : Bool) (input : Text)
    (tabstop : Nat) (debug_markers : Bool) :
    let output :=
      sanitize_for_tui width ascii_only_enabled input .Plain ⟨true, tabstop, debug_markers⟩
    sanitize_for_tui width ascii_only_enabled output .Plain ⟨true, tabstop, debug_markers⟩ =
      output := by
  intro output
  have hplain : PlainSafe output := sanitize_plain width ascii_only_enabled input tabstop _
  have htab : '\t' ∉ output := fun hmem => absurd (hplain '\t' hmem rfl) (by decide)
  have hsent : output.map (sent ascii_only_enabled) = output := by
    apply map_sent_eq_self
    intro c hc
    have hmem : c ∈ output := hc
    simp only [output, sanitize_eq] at hmem
    obtain ⟨d, -, rfl⟩ := List.mem_map.mp hmem
    exact sent_sent ascii_only_enabled d
  rw [sanitize_eq, expand_tabs_fixed htab, strip_loop_fixed hplain, hsent]

/-! ## AnsiPreserving -/

theorem ansiSafe_cons {c : Char} {text : Text} :
    AnsiSafe (c :: text) ↔
      (is_special c = true → c ≠ '\n' → c = ESC ∧ BeginsCsi text) ∧ AnsiSafe text := by
  constructor
  · intro h
    refine ⟨h [] c text rfl, fun before d after heq => ?_⟩
    exact h (c :: before) d after (congrArg (c :: ·) heq)
  · rintro ⟨hhead, htail⟩ before d after heq
    cases before with
    | nil =>
      obtain ⟨rfl, rfl⟩ := List.cons.inj heq
      exact hhead
    | cons b before => exact htail before d after (List.cons.inj heq).2

theorem ansiSafe_nil : AnsiSafe [] := by
  intro before c after heq
  simp at heq

theorem ansiSafe_cons_plain {c : Char} {text : Text} (hc : is_special c = true → c = '\n') :
    AnsiSafe (c :: text) ↔ AnsiSafe text := by
  rw [ansiSafe_cons, and_iff_right]
  exact fun hspecial hne => absurd (hc hspecial) hne

theorem ansiSafe_append_plain {l text : Text} (hl : ∀ c ∈ l, is_special c = false) :
    AnsiSafe (l ++ text) ↔ AnsiSafe text := by
  induction l with
  | nil => rfl
  | cons c l ih =>
    obtain ⟨hc, hl⟩ := List.forall_mem_cons.mp hl
    rw [List.cons_append, ansiSafe_cons_plain (by simp [hc]), ih hl]

/-- The suffixes of a safe text are safe. -/
theorem ansiSafe_of_append {l text : Text} (h : AnsiSafe (l ++ text)) : AnsiSafe text := by
  induction l with
  | nil => exact h
  | cons c l ih => exact ih (ansiSafe_cons.mp h).2

/-- What a sequence may hold. -/
def Clean (body : Text) : Prop := ∀ c ∈ body, is_param c = true ∨ is_final c = true

theorem clean_not_special {body : Text} (h : Clean body) : ∀ c ∈ body, is_special c = false :=
  fun c hc => (h c hc).elim not_special_of_param not_special_of_final

/-- A text whose only final character is its last one, or which ends the output. -/
def Closes (body rest : Text) : Prop :=
  (∀ c ∈ body.dropLast, is_final c = false) ∧
    ((∃ c, body.getLast? = some c ∧ is_final c = true) ∨
      (∀ c ∈ body, is_final c = false) ∧ rest = [])

theorem begins_of_clean {body rest : Text} (hcloses : Closes body rest) (hclean : Clean body) :
    BeginsCsi ('[' :: (body ++ rest)) := by
  obtain ⟨hbefore, ⟨c, hlast, hfinal⟩ | ⟨hnone, rfl⟩⟩ := hcloses
  · obtain ⟨init, rfl⟩ := List.getLast?_eq_some_iff.mp hlast
    rw [List.dropLast_concat] at hbefore
    refine ⟨init, c :: rest, by simp, fun b hb => ?_, .inr ⟨c, rest, rfl, hfinal⟩⟩
    exact (hclean b (List.mem_append_left _ hb)).resolve_right (by simp [hbefore b hb])
  · refine ⟨body, [], rfl, fun b hb => ?_, .inl rfl⟩
    exact (hclean b hb).resolve_right (by simp [hnone b hb])

theorem clean_of_begins {body rest : Text} (hbefore : ∀ c ∈ body.dropLast, is_final c = false)
    (hbegins : BeginsCsi ('[' :: (body ++ rest))) : Clean body := by
  obtain ⟨params, tail, heq, hparams, htail⟩ := hbegins
  rcases List.append_eq_append_iff.mp (List.cons.inj heq).2 with
    ⟨more, rfl, -⟩ | ⟨more, rfl, rfl⟩
  · exact fun c hc => .inl (hparams c (List.mem_append_left _ hc))
  · cases more with
    | nil =>
      intro c hc
      rw [List.append_nil] at hc
      exact .inl (hparams c hc)
    | cons final more =>
      obtain ⟨_, _, htail', hfinal⟩ := htail.resolve_left (by simp)
      obtain ⟨rfl, -⟩ := List.cons.inj htail'
      -- Before the last character there is no final one.
      have hmore : more = [] := by
        by_contra hne
        have hmem : final ∈ (params ++ final :: more).dropLast := by
          rw [List.dropLast_append_of_ne_nil (by simp), List.dropLast_cons_of_ne_nil hne]
          simp
        rw [hbefore final hmem] at hfinal
        cases hfinal
      subst hmore
      intro c hc
      rcases List.mem_append.mp hc with hc | hc
      · exact .inl (hparams c hc)
      · obtain rfl := List.mem_singleton.mp hc
        exact .inr hfinal

/-- The scan reaches no CSI sequence with another character than 0x20..0x3F before its end. -/
def CsiClean (ascii_only : Bool) (ps : List Piece) : Prop :=
  ∀ body, .csi body ∈ ps → Clean (body.map (sent ascii_only))

theorem csiClean_cons {ascii_only : Bool} {p : Piece} {ps : List Piece} :
    CsiClean ascii_only (p :: ps) ↔
      (∀ body, p = .csi body → Clean (body.map (sent ascii_only))) ∧ CsiClean ascii_only ps := by
  simp only [CsiClean, List.mem_cons, or_imp, forall_and, eq_comm (a := p)]

theorem not_final_sent {ascii_only : Bool} {c : Char} (h : is_final c = false) :
    is_final (sent ascii_only c) = false := by
  rw [Bool.eq_false_iff] at h ⊢
  exact fun hfinal => h (final_of_sent hfinal)

theorem closes_sent (ascii_only : Bool) {body rest : Text} (h : Closes body rest) :
    Closes (body.map (sent ascii_only)) rest := by
  have hnone {l : Text} (hl : ∀ c ∈ l, is_final c = false) :
      ∀ c ∈ l.map (sent ascii_only), is_final c = false := by
    intro c hc
    obtain ⟨d, hd, rfl⟩ := List.mem_map.mp hc
    exact not_final_sent (hl d hd)
  obtain ⟨hbefore, hend⟩ := h
  refine ⟨?_, ?_⟩
  · rw [← List.map_dropLast]
    exact hnone hbefore
  · rcases hend with ⟨c, hlast, hfinal⟩ | ⟨hbody, hrest⟩
    · refine .inl ⟨c, ?_, hfinal⟩
      rw [List.getLast?_map, hlast, Option.map_some, sent_of_final hfinal]
    · exact .inr ⟨hnone hbody, hrest⟩

theorem ansiSafe_csi {body rest : Text} (h : Closes body rest) :
    AnsiSafe (ESC :: '[' :: (body ++ rest)) ↔ Clean body ∧ AnsiSafe rest := by
  have hesc : is_special ESC = true ∧ ESC ≠ '\n' := by decide
  rw [ansiSafe_cons]
  constructor
  · rintro ⟨hbegins, hsafe⟩
    refine ⟨clean_of_begins h.1 (hbegins hesc.1 hesc.2).2, ?_⟩
    exact ansiSafe_of_append (ansiSafe_cons.mp hsafe).2
  · rintro ⟨hclean, hsafe⟩
    refine ⟨fun _ _ => ⟨rfl, begins_of_clean h hclean⟩, ?_⟩
    apply (ansiSafe_append_plain (l := ['[']) (by simp [show is_special '[' = false from rfl])).mpr
    exact (ansiSafe_append_plain (clean_not_special hclean)).mpr hsafe

theorem ansiSafe_pieces_iff {ascii_only debug_markers : Bool} {ps : List Piece}
    (h : WellFormed ps) :
    AnsiSafe ((ps.flatMap (Piece.emit .AnsiPreserving debug_markers)).map (sent ascii_only)) ↔
      CsiClean ascii_only ps := by
  have hmarker (c : Char) (hc : c ∈ [MARKER].map (sent ascii_only)) : is_special c = false := by
    obtain rfl := List.mem_singleton.mp hc
    rw [Bool.eq_false_iff]
    exact fun hspecial => absurd (special_of_sent hspecial).1 (by decide)
  induction ps with
  | nil => exact iff_of_true ansiSafe_nil (fun _ hmem => absurd hmem List.not_mem_nil)
  | cons p ps ih =>
    rw [csiClean_cons, List.flatMap_cons, List.map_append]
    cases p with
    | char c =>
      obtain ⟨hc, h⟩ := h
      have hrest := (ih h).symm
      rw [hrest, and_iff_right (by simp)]
      apply ansiSafe_cons_plain
      intro hspecial
      obtain ⟨hspecial, hsame⟩ := special_of_sent hspecial
      rw [hsame]
      exact hc.resolve_right (by simp [hspecial])
    | dropped marked =>
      have hrest := (ih h).symm
      rw [hrest, and_iff_right (by simp)]
      apply ansiSafe_append_plain
      unfold Piece.emit
      dsimp only
      split
      · exact hmarker
      · simp
    | csi body =>
      obtain ⟨hbefore, hend, h⟩ := h
      have hrest := (ih h).symm
      rw [hrest]
      have hcloses : Closes body
          ((ps.flatMap (Piece.emit .AnsiPreserving debug_markers)).map (sent ascii_only)) := by
        refine ⟨hbefore, hend.imp_right fun hnone => ⟨hnone.1, ?_⟩⟩
        rw [hnone.2, List.flatMap_nil, List.map_nil]
      have hesc : sent ascii_only ESC = ESC := by cases ascii_only <;> rfl
      have hbracket : sent ascii_only '[' = '[' := by cases ascii_only <;> rfl
      have hsafe := ansiSafe_csi (closes_sent ascii_only hcloses)
      simpa [Piece.emit, hesc, hbracket] using hsafe

/-- In Plain mode the output is always safe and the same when sanitised again. In AnsiPreserving
mode it is safe exactly if the CSI sequences of the input are clean. -/
theorem output_is_safe_iff (width : Char → Option Nat) (ascii_only_enabled : Bool) (input : Text)
    (tabstop : Nat) (debug_markers : Bool) :
    let sanitized := fun (input : Text) (mode : Mode) =>
      sanitize_for_tui width ascii_only_enabled input mode ⟨true, tabstop, debug_markers⟩
    (PlainSafe (sanitized input .Plain) ∧
        sanitized (sanitized input .Plain) .Plain = sanitized input .Plain ∧
        AnsiSafe (sanitized input .AnsiPreserving)) ↔
      CsiClean ascii_only_enabled (pieces (expand_tabs_to_spaces width input tabstop)) := by
  intro sanitized
  have hplain : PlainSafe (sanitized input .Plain) :=
    sanitize_plain width ascii_only_enabled input tabstop debug_markers
  have hagain : sanitized (sanitized input .Plain) .Plain = sanitized input .Plain :=
    sanitize_again width ascii_only_enabled input tabstop debug_markers
  rw [and_iff_right hplain, and_iff_right hagain]
  simp only [sanitized, sanitize_eq, strip_loop_eq]
  apply ansiSafe_pieces_iff
  exact pieces_wellFormed _

/-- ESC [ ESC ] 0 ; t BEL: the second ESC is taken for a part of the CSI sequence, which the
bracket then ends. -/
theorem osc_introducer_survives :
    let input := [ESC, '[', ESC, ']', '0', ';', 't', BEL]
    let output := sanitize_for_tui (fun _ => some 1) false input .AnsiPreserving ⟨true, 4, false⟩
    output = [ESC, '[', ESC, ']', '0', ';', 't'] ∧ ¬ AnsiSafe output := by
  intro input output
  have houtput : output = [ESC, '[', ESC, ']', '0', ';', 't'] := by decide +kernel
  refine ⟨houtput, fun hsafe => ?_⟩
  rw [houtput] at hsafe
  obtain ⟨-, body, rest, hafter, -⟩ := hsafe [ESC, '['] ESC [']', '0', ';', 't'] rfl rfl (by decide)
  exact absurd (List.cons.inj hafter).1 (by decide)

end Ecode.sanitize
