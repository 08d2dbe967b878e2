-- The file of the messages that were sent (core/src/message_history.rs): processes append to it and
-- look entries up under advisory locks, and count its lines without one.
import Ecode.JsonText
import Ecode.Runs
import Ecode.TextLines

namespace Ecode.message_history

open runs

/-! ## The program -/

structure HistoryEntry where
  session_id : Text
  ts : Nat
  text : Text
  deriving DecidableEq, Repr

/-- The text before each field. -/
def session_id_key : Text := "\x7b\x22session_id\x22:".toList

def ts_key : Text := ",\x22ts\x22:".toList

def text_key : Text := ",\x22text\x22:".toList

/-- `serde_json::to_string` of an entry. -/
def to_json (entry : HistoryEntry) : Text :=
  session_id_key ++ json.quote entry.session_id ++ ts_key ++ Text.ofNat entry.ts ++
    text_key ++ json.quote entry.text ++ ['\x7d']

/-- A call of `append_entry`: it waits for the exclusive lock, writes the rest of its line, and
returns. -/
inductive Append where
  | waiting (entry : HistoryEntry)
  | writing (entry : HistoryEntry) (rest : Text)
  | returned (entry : HistoryEntry)
  | gave_up
  deriving DecidableEq, Repr

/-- A call of `history_metadata`: how far it has read, the line feeds that it has counted, and how
many entries the file had when it began. -/
structure Scan where
  position : Nat
  count : Nat
  since : Nat
  deriving DecidableEq, Repr

/-- The file, the locks and the calls. The calls of `append_entry` are the `W`. -/
structure History (W : Type) where
  ino : Nat
  contents : Text
  writer : Option W
  /-- The offsets of the lookups that hold the shared lock. -/
  reading : List Nat
  scanning : List Scan
  appends : W → Option Append
  /-- The entries in the order in which their lines were complete. -/
  appended : List (W × HistoryEntry)
  answers : List (Nat × Option HistoryEntry)
  /-- What `history_metadata` returned, with the entries when the call began. -/
  counts : List (Nat × Nat)

inductive HistoryAction (W : Type) where
  | append_open (w : W) (entry : HistoryEntry)
  | append_lock (w : W)
  | append_write (w : W) (n : Nat)
  | append_unlock (w : W)
  | append_give_up (w : W)
  | append_die (w : W)
  | lookup_lock (log_id offset : Nat)
  | lookup_answer (offset : Nat)
  | metadata_open
  | metadata_read (scan : Scan) (n : Nat)
  | metadata_return (scan : Scan)
  deriving DecidableEq, Repr

namespace History

variable {W : Type}

def new (ino : Nat) : History W where
  ino := ino
  contents := []
  writer := none
  reading := []
  scanning := []
  appends := fun _ => none
  appended := []
  answers := []
  counts := []

/-- `from_str` reads an entry from a line. -/
def step [DecidableEq W] (from_str : Text → Option HistoryEntry) (s : History W) :
    HistoryAction W → Option (History W)
  | .append_open w entry =>
    match s.appends w with
    | none => some { s with appends := Function.update s.appends w (some (.waiting entry)) }
    | some _ => none
  | .append_lock w =>
    match s.appends w with
    | some (.waiting entry) =>
      if s.writer = none ∧ s.reading = [] then
        some { s with
          writer := some w
          appends := Function.update s.appends w (some (.writing entry (to_json entry ++ ['\n']))) }
      else none
    | _ => none
  | .append_write w n =>
    match s.appends w with
    | some (.writing entry rest) =>
      if 0 < n ∧ n ≤ rest.length then
        some { s with
          contents := s.contents ++ rest.take n
          appends := Function.update s.appends w (some (.writing entry (rest.drop n)))
          appended := if rest.length = n then s.appended ++ [(w, entry)] else s.appended }
      else none
    | _ => none
  | .append_unlock w =>
    match s.appends w with
    | some (.writing entry []) =>
      some { s with
        writer := none
        appends := Function.update s.appends w (some (.returned entry)) }
    | _ => none
  | .append_give_up w =>
    match s.appends w with
    | some (.waiting _) => some { s with appends := Function.update s.appends w (some .gave_up) }
    | _ => none
  | .append_die w =>
    -- The lock goes with the process, and what it wrote stays.
    if s.writer = some w then
      some { s with writer := none, appends := Function.update s.appends w (some .gave_up) }
    else none
  | .lookup_lock log_id offset =>
    if log_id = s.ino ∧ s.writer = none then some { s with reading := offset :: s.reading }
    else none
  | .lookup_answer offset =>
    if offset ∈ s.reading then
      some { s with
        reading := s.reading.erase offset
        answers := s.answers ++ [(offset, (Text.lines s.contents)[offset]?.bind from_str)] }
    else none
  | .metadata_open => some { s with scanning := ⟨0, 0, s.appended.length⟩ :: s.scanning }
  | .metadata_read scan n =>
    if scan ∈ s.scanning ∧ scan.position + n ≤ s.contents.length then
      let buf := (s.contents.drop scan.position).take n
      some { s with
        scanning :=
          ⟨scan.position + n, scan.count + buf.count '\n', scan.since⟩ :: s.scanning.erase scan }
    else none
  | .metadata_return scan =>
    if scan ∈ s.scanning ∧ scan.position = s.contents.length then
      some { s with
        scanning := s.scanning.erase scan
        counts := s.counts ++ [(scan.since, scan.count)] }
    else none

end History

/-! ## Reading an entry back -/

/-- The rest of a quoted string, and what follows it. -/
def unquote : Text → Option (Text × Text)
  | '\x22' :: rest => some ([], rest)
  | '\\' :: 'b' :: rest => (unquote rest).map fun p => (Char.ofNat 8 :: p.1, p.2)
  | '\\' :: 'f' :: rest => (unquote rest).map fun p => (Char.ofNat 12 :: p.1, p.2)
  | '\\' :: 'n' :: rest => (unquote rest).map fun p => ('\n' :: p.1, p.2)
  | '\\' :: 'r' :: rest => (unquote rest).map fun p => ('\r' :: p.1, p.2)
  | '\\' :: 't' :: rest => (unquote rest).map fun p => ('\t' :: p.1, p.2)
  | '\\' :: 'u' :: a :: b :: c :: d :: rest =>
    (unquote rest).map fun p =>
      (Char.ofNat (4096 * json.hex_value a + 256 * json.hex_value b + 16 * json.hex_value c +
        json.hex_value d) :: p.1, p.2)
  | '\\' :: c :: rest => (unquote rest).map fun p => (c :: p.1, p.2)
  | c :: rest => (unquote rest).map fun p => (c :: p.1, p.2)
  | [] => none

/-- An entry as it is written, with its fields in their order. -/
def from_json (line : Text) : Option HistoryEntry :=
  (Text.strip_prefix line (session_id_key ++ ['\x22'])).bind fun line =>
  (unquote line).bind fun (session_id, line) =>
  (Text.strip_prefix line ts_key).bind fun line =>
  (Text.strip_prefix (line.dropWhile Char.isDigit) (text_key ++ ['\x22'])).bind fun rest =>
  (unquote rest).bind fun (text, rest) =>
    if rest = ['\x7d'] then
      some ⟨session_id, Nat.ofDigitChars 10 (line.takeWhile Char.isDigit) 0, text⟩
    else none

theorem unquote_control (n : Nat) (h : n < 32) (rest : Text) :
    unquote (json.escape (Char.ofNat n) ++ rest) =
      (unquote rest).map fun p => (Char.ofNat n :: p.1, p.2) := by
  interval_cases n <;> rfl

theorem unquote_escape (c : Char) (rest : Text) :
    unquote (json.escape c ++ rest) = (unquote rest).map fun p => (c :: p.1, p.2) := by
  by_cases hcontrol : c.toNat < 32
  · have hread := unquote_control c.toNat hcontrol rest
    rwa [Char.ofNat_toNat] at hread
  · by_cases hquote : c = '\x22'
    · subst hquote
      rfl
    by_cases hslash : c = '\\'
    · subst hslash
      rfl
    have hplain : json.escape c = [c] := by
      unfold json.escape
      have hne : ∀ d : Char, d.toNat < 32 → c ≠ d := by
        rintro d hd rfl
        exact hcontrol hd
      rw [if_neg hquote, if_neg hslash, if_neg (by omega), if_neg (by omega),
        if_neg (hne _ (by decide)), if_neg (hne _ (by decide)), if_neg (hne _ (by decide)),
        if_neg hcontrol]
    rw [hplain, List.singleton_append, unquote.eq_def]
    split <;> simp_all

theorem unquote_quote (t rest : Text) :
    unquote (t.flatMap json.escape ++ '\x22' :: rest) = some (t, rest) := by
  induction t with
  | nil => rfl
  | cons c t ih => rw [List.flatMap_cons, List.append_assoc, unquote_escape, ih, Option.map_some]

/-- What is written is read back. -/
theorem from_json_to_json (entry : HistoryEntry) : from_json (to_json entry) = some entry := by
  obtain ⟨session_id, ts, text⟩ := entry
  have hdigits : ∀ c ∈ Text.ofNat ts, c.isDigit = true := fun c hc =>
    Nat.isDigit_of_mem_toDigits (by decide) (by decide) hc
  let after_ts : Text := text_key ++ ['\x22'] ++ (text.flatMap json.escape ++ '\x22' :: ['\x7d'])
  have hcomma : ∃ rest, after_ts = ',' :: rest := ⟨_, rfl⟩
  have hsplit : to_json ⟨session_id, ts, text⟩ = session_id_key ++ ['\x22'] ++
      (session_id.flatMap json.escape ++ '\x22' :: (ts_key ++ (Text.ofNat ts ++ after_ts))) := by
    simp [to_json, json.quote, after_ts]
  have htake : (Text.ofNat ts ++ after_ts).takeWhile Char.isDigit = Text.ofNat ts := by
    obtain ⟨rest, hrest⟩ := hcomma
    rw [hrest, List.takeWhile_append_of_pos hdigits]
    simp
  have hdrop : (Text.ofNat ts ++ after_ts).dropWhile Char.isDigit = after_ts := by
    obtain ⟨rest, hrest⟩ := hcomma
    rw [hrest, List.dropWhile_append_of_pos hdigits]
    simp
  have hvalue : Nat.ofDigitChars 10 (Text.ofNat ts) 0 = ts := Nat.ofDigitChars_ten_toDigits
  unfold from_json
  rw [hsplit, Text.strip_prefix_append, Option.bind_some, unquote_quote, Option.bind_some]
  dsimp only
  rw [Text.strip_prefix_append, Option.bind_some, htake, hdrop, Text.strip_prefix_append,
    Option.bind_some, unquote_quote, Option.bind_some]
  dsimp only
  rw [if_pos rfl, hvalue]

/-! ## The lines -/

theorem line_feed_not_mem_control (n : Nat) (h : n < 32) : '\n' ∉ json.escape (Char.ofNat n) := by
  interval_cases n <;> decide

theorem line_feed_not_mem_quote (t : Text) : '\n' ∉ json.quote t := by
  have hescape : ∀ c : Char, '\n' ∉ json.escape c := by
    intro c
    by_cases hcontrol : c.toNat < 32
    · have hmem := line_feed_not_mem_control c.toNat hcontrol
      rwa [Char.ofNat_toNat] at hmem
    · unfold json.escape
      split_ifs <;> simp_all [eq_comm]
  simp [json.quote, hescape]

/-- The line of an entry is one line. -/
theorem line_feed_not_mem (entry : HistoryEntry) : '\n' ∉ to_json entry := by
  have hdigits : '\n' ∉ Text.ofNat entry.ts := fun hmem =>
    absurd (Nat.isDigit_of_mem_toDigits (by decide) (by decide) hmem) (by decide)
  have hquote := line_feed_not_mem_quote
  unfold to_json
  simp only [List.mem_append, not_or]
  exact ⟨⟨⟨⟨⟨⟨by decide, hquote _⟩, by decide⟩, hdigits⟩, by decide⟩, hquote _⟩, by decide⟩

theorem to_json_last (entry : HistoryEntry) : (to_json entry).getLast? ≠ some '\r' := by
  unfold to_json
  rw [List.getLast?_append]
  simp

/-- The file that holds these entries. -/
def file {W : Type} (appended : List (W × HistoryEntry)) : Text :=
  Text.terminated (appended.map fun a => to_json a.2)

variable {W : Type} {appended : List (W × HistoryEntry)}

theorem file_snoc (w : W) (entry : HistoryEntry) :
    file (appended ++ [(w, entry)]) = file appended ++ (to_json entry ++ ['\n']) := by
  unfold file
  rw [List.map_append, Text.terminated_append]
  simp [Text.terminated]

theorem count_file : (file appended).count '\n' = appended.length := by
  induction appended using List.reverseRecOn with
  | nil => rfl
  | append_singleton appended a ih =>
    rw [file_snoc, List.count_append, List.count_append, ih,
      List.count_eq_zero_of_not_mem (line_feed_not_mem a.2)]
    simp

theorem lines_file : Text.lines (file appended) = appended.map fun a => to_json a.2 := by
  have hone : ∀ l ∈ appended.map fun a => to_json a.2, '\n' ∉ l := by
    intro l hl
    obtain ⟨a, -, rfl⟩ := List.mem_map.mp hl
    exact line_feed_not_mem a.2
  have hlines := Text.split_inclusive_terminated hone []
  rw [List.append_nil] at hlines
  unfold Text.lines file
  rw [hlines, show Text.split_inclusive [] = [] from rfl, List.append_nil, List.map_map,
    List.map_map]
  exact List.map_congr_left fun a _ => Text.chomp_line (to_json_last a.2)

end Ecode.message_history
