-- The Up/Down history of the composer: entries of earlier sessions that are
-- fetched on demand, then those of this one (tui/src/bottom_pane/chat_composer_history.rs).
import Ecode.Text

namespace Ecode.chat_composer_history

structure ChatComposerHistory where
  history_log_id : Option Nat := none
  history_entry_count : Nat := 0
  local_history : List Text := []
  fetched_history : Nat → Option Text := fun _ => none
  history_cursor : Option Nat := none
  last_history_text : Option Text := none
  original_text : Option Text := none

structure GetHistoryEntryRequest where
  offset : Nat
  log_id : Nat
  deriving DecidableEq

/-- What a navigation gives to the composer, asks of the core, and leaves. -/
structure Navigated where
  text : Option Text
  sent : Option GetHistoryEntryRequest := none
  history : ChatComposerHistory

structure GetHistoryEntryResponse where
  log_id : Nat
  offset : Nat
  entry : Option Text

namespace ChatComposerHistory

def set_metadata (_ : ChatComposerHistory) (log_id entry_count : Nat) : ChatComposerHistory where
  history_log_id := some log_id
  history_entry_count := entry_count

def reset_navigation (s : ChatComposerHistory) : ChatComposerHistory :=
  { s with history_cursor := none, last_history_text := none, original_text := none }

def record_local_submission (s : ChatComposerHistory) (text : Text) : ChatComposerHistory :=
  if text.isEmpty then s
  else if s.local_history.getLast? = some text then s
  else
    { s with
      local_history := s.local_history ++ [text]
      history_cursor := none
      last_history_text := none
      original_text := none }

def is_browsing (s : ChatComposerHistory) : Bool := s.history_cursor.isSome

def total_entries (s : ChatComposerHistory) : Nat :=
  s.history_entry_count + s.local_history.length

def populate_history_at_index (s : ChatComposerHistory) (global_idx : Nat) : Navigated :=
  if s.history_entry_count ≤ global_idx then
    match s.local_history[global_idx - s.history_entry_count]? with
    | some text => { text := some text, history := { s with last_history_text := some text } }
    | none => { text := none, history := s }
  else
    match s.fetched_history global_idx with
    | some text => { text := some text, history := { s with last_history_text := some text } }
    | none =>
      { text := none
        sent := s.history_log_id.map fun log_id => { offset := global_idx, log_id }
        history := s }

def navigate_up (s : ChatComposerHistory) (current_text : Text) : Navigated :=
  if s.total_entries = 0 then { text := none, history := s }
  else
    let s :=
      if s.history_cursor = none ∧ s.original_text = none then
        { s with original_text := some current_text }
      else s
    match s.history_cursor with
    | none =>
      let next_idx := s.total_entries - 1
      { s with history_cursor := some next_idx }.populate_history_at_index next_idx
    | some 0 => { text := none, history := s }
    | some (idx + 1) => { s with history_cursor := some idx }.populate_history_at_index idx

def navigate_down (s : ChatComposerHistory) : Navigated :=
  if s.total_entries = 0 then { text := none, history := s }
  else
    match s.history_cursor with
    | none => { text := none, history := s }
    | some idx =>
      if s.total_entries ≤ idx + 1 then
        -- Past the newest entry.
        { text := some (s.original_text.getD []), history := s.reset_navigation }
      else { s with history_cursor := some (idx + 1) }.populate_history_at_index (idx + 1)

/-- `on_entry_response`, with the text for the composer. -/
def on_entry_response (s : ChatComposerHistory) (r : GetHistoryEntryResponse) :
    Option Text × ChatComposerHistory :=
  if s.history_log_id ≠ some r.log_id then (none, s)
  else
    match r.entry with
    | none => (none, s)
    | some text =>
      let s := { s with fetched_history := Function.update s.fetched_history r.offset (some text) }
      if s.history_cursor = some r.offset then
        (some text, { s with last_history_text := some text })
      else (none, s)

end ChatComposerHistory

open ChatComposerHistory

/-! ## Runs -/

inductive Op where
  | set_metadata (log_id entry_count : Nat)
  | record_local_submission (text : Text)
  | reset_navigation
  | navigate_up (current_text : Text)
  | navigate_down
  | on_entry_response (response : GetHistoryEntryResponse)

def Op.apply (s : ChatComposerHistory) : Op → ChatComposerHistory
  | .set_metadata log_id entry_count => s.set_metadata log_id entry_count
  | .record_local_submission text => s.record_local_submission text
  | .reset_navigation => s.reset_navigation
  | .navigate_up current_text => (s.navigate_up current_text).history
  | .navigate_down => s.navigate_down.history
  | .on_entry_response response => (s.on_entry_response response).2

def run (ops : List Op) : ChatComposerHistory := ops.foldl Op.apply {}

/-- Responses that arrive one after another. -/
def receive (s : ChatComposerHistory) (rs : List GetHistoryEntryResponse) : ChatComposerHistory :=
  rs.foldl (fun s r => (s.on_entry_response r).2) s

/-- Ups, each with the text in the composer and the responses that follow. -/
def ups (s : ChatComposerHistory) (us : List (Text × List GetHistoryEntryResponse)) :
    ChatComposerHistory :=
  us.foldl (fun s u => receive (s.navigate_up u.1).history u.2) s

/-- Downs, each with the responses that follow. -/
def downs (s : ChatComposerHistory) (ds : List (List GetHistoryEntryResponse)) :
    ChatComposerHistory :=
  ds.foldl (fun s rs => receive s.navigate_down.history rs) s

/-- After the submission the history is not browsed, and the next up gives the text. -/
structure Recalled (s : ChatComposerHistory) (text : Text) : Prop where
  idle : (s.record_local_submission text).is_browsing = false
  next : ∀ rs current_text,
    ((receive (s.record_local_submission text) rs).navigate_up current_text).text = some text

/-- From a history that is not browsed, as many downs as ups give the first text back. -/
def Restores (s : ChatComposerHistory) : Prop :=
  s.is_browsing = false → ∀ t rs us ds, us.length < s.total_entries → ds.length = us.length →
    (downs (ups s ((t, rs) :: us)) ds).navigate_down.text = some t ∧
      (downs (ups s ((t, rs) :: us)) ds).navigate_down.history.is_browsing = false

/-! ## What a navigation leaves as it was -/

/-- The histories differ in nothing but the fetched entries and the last text. -/
structure Alike (s s' : ChatComposerHistory) : Prop where
  count : s'.history_entry_count = s.history_entry_count
  texts : s'.local_history = s.local_history
  cursor : s'.history_cursor = s.history_cursor
  original : s'.original_text = s.original_text

theorem Alike.total {s s' : ChatComposerHistory} (h : Alike s s') :
    s'.total_entries = s.total_entries := by
  simp [total_entries, h.count, h.texts]

theorem alike_populate (s : ChatComposerHistory) (i : Nat) :
    Alike s (s.populate_history_at_index i).history := by
  unfold populate_history_at_index
  repeat' split
  all_goals exact ⟨rfl, rfl, rfl, rfl⟩

theorem alike_response (s : ChatComposerHistory) (r : GetHistoryEntryResponse) :
    Alike s (s.on_entry_response r).2 := by
  unfold on_entry_response
  dsimp only
  repeat' split
  all_goals exact ⟨rfl, rfl, rfl, rfl⟩

theorem alike_receive (s : ChatComposerHistory) (rs : List GetHistoryEntryResponse) :
    Alike s (receive s rs) := by
  induction rs generalizing s with
  | nil => exact ⟨rfl, rfl, rfl, rfl⟩
  | cons r rs ih =>
    have hfirst := alike_response s r
    have hrest := ih (s.on_entry_response r).2
    exact ⟨hrest.count.trans hfirst.count, hrest.texts.trans hfirst.texts,
      hrest.cursor.trans hfirst.cursor, hrest.original.trans hfirst.original⟩

/-- Browsing at index `i` of `total` entries, with `t` to give back. -/
structure Browsing (total i : Nat) (t : Text) (s : ChatComposerHistory) : Prop where
  total_entries : s.total_entries = total
  cursor : s.history_cursor = some i
  original : s.original_text = some t
  inside : i < total

section browsing

variable {s s' : ChatComposerHistory} {total i : Nat} {t : Text}

theorem Browsing.alike (h : Browsing total i t s) (hs : Alike s s') : Browsing total i t s' where
  total_entries := hs.total.trans h.total_entries
  cursor := hs.cursor.trans h.cursor
  original := hs.original.trans h.original
  inside := h.inside

/-- The first up goes to the newest entry. -/
theorem Browsing.start (hcursor : s.history_cursor = none) (horiginal : s.original_text = none)
    (hsome : 0 < s.total_entries) :
    Browsing s.total_entries (s.total_entries - 1) t (s.navigate_up t).history := by
  unfold navigate_up
  rw [if_neg (by omega), if_pos ⟨hcursor, horiginal⟩]
  simp only [hcursor]
  refine Browsing.alike ?_ (alike_populate _ _)
  exact ⟨rfl, rfl, rfl, by omega⟩

theorem Browsing.up (h : Browsing total (i + 1) t s) (current_text : Text) :
    Browsing total i t (s.navigate_up current_text).history := by
  have hlt := h.inside
  have htotal := h.total_entries
  unfold navigate_up
  rw [if_neg (by omega), if_neg (by simp [h.cursor])]
  simp only [h.cursor]
  refine Browsing.alike ?_ (alike_populate _ _)
  exact ⟨htotal, rfl, h.original, by omega⟩

theorem Browsing.down (h : Browsing total i t s) (hlast : i + 1 < total) :
    Browsing total (i + 1) t s.navigate_down.history := by
  have htotal := h.total_entries
  unfold navigate_down
  rw [if_neg (by omega)]
  simp only [h.cursor]
  rw [if_neg (by omega)]
  refine Browsing.alike ?_ (alike_populate _ _)
  exact ⟨htotal, rfl, h.original, hlast⟩

/-- A down at the newest entry gives the first text back. -/
theorem Browsing.leave (h : Browsing total i t s) (hlast : i + 1 = total) :
    s.navigate_down.text = some t ∧ s.navigate_down.history.is_browsing = false := by
  have htotal := h.total_entries
  unfold navigate_down
  rw [if_neg (by omega)]
  simp only [h.cursor]
  rw [if_pos (by omega), h.original]
  exact ⟨rfl, rfl⟩

theorem Browsing.ups (us : List (Text × List GetHistoryEntryResponse))
    (h : Browsing total i t s) (hroom : us.length ≤ i) :
    Browsing total (i - us.length) t (ups s us) := by
  induction us generalizing s i with
  | nil => exact h
  | cons u us ih =>
    rw [List.length_cons] at hroom ⊢
    obtain ⟨j, rfl⟩ : ∃ j, i = j + 1 := ⟨i - 1, by omega⟩
    have hnext := (h.up u.1).alike (alike_receive _ u.2)
    have hend := ih hnext (by omega)
    have hindex : j + 1 - (us.length + 1) = j - us.length := by omega
    rw [hindex]
    exact hend

theorem Browsing.downs (ds : List (List GetHistoryEntryResponse)) (h : Browsing total i t s)
    (hroom : i + ds.length < total) : Browsing total (i + ds.length) t (downs s ds) := by
  induction ds generalizing s i with
  | nil => exact h
  | cons rs ds ih =>
    rw [List.length_cons] at hroom ⊢
    have hnext := (h.down (by omega)).alike (alike_receive _ rs)
    have hend := ih hnext (by omega)
    have hindex : i + (ds.length + 1) = i + 1 + ds.length := by omega
    rw [hindex]
    exact hend

end browsing

/-! ## The invariant -/

/-- Nothing is kept to give back while the history is not browsed. -/
def Settled (s : ChatComposerHistory) : Prop := s.history_cursor = none → s.original_text = none

theorem Settled.alike {s s' : ChatComposerHistory} (h : Settled s) (hs : Alike s s') :
    Settled s' := by
  unfold Settled
  rw [hs.cursor, hs.original]
  exact h

theorem settled_of_browsing {s : ChatComposerHistory} (h : s.history_cursor ≠ none) : Settled s :=
  fun hnone => absurd hnone h

theorem Settled.populate {s : ChatComposerHistory} (h : Settled s) (i : Nat) :
    Settled (s.populate_history_at_index i).history :=
  h.alike (alike_populate s i)

theorem Settled.up {s : ChatComposerHistory} (h : Settled s) (current_text : Text) :
    Settled (s.navigate_up current_text).history := by
  unfold navigate_up
  by_cases hempty : s.total_entries = 0
  · rw [if_pos hempty]
    exact h
  rw [if_neg hempty]
  cases hcursor : s.history_cursor with
  | none =>
    simp only [h hcursor, and_self, if_true]
    exact Settled.populate (settled_of_browsing (by simp)) _
  | some i =>
    simp only [reduceCtorEq, false_and, if_false, hcursor]
    cases i with
    | zero => exact h
    | succ idx => exact Settled.populate (settled_of_browsing (by simp)) _

theorem Settled.down {s : ChatComposerHistory} (h : Settled s) :
    Settled s.navigate_down.history := by
  unfold navigate_down
  by_cases hempty : s.total_entries = 0
  · rw [if_pos hempty]
    exact h
  rw [if_neg hempty]
  cases hcursor : s.history_cursor with
  | none => exact h
  | some i =>
    dsimp only
    split_ifs with hlast
    · exact fun _ => rfl
    · exact Settled.populate (settled_of_browsing (by simp)) _

theorem Settled.apply {s : ChatComposerHistory} (h : Settled s) (op : Op) :
    Settled (op.apply s) := by
  cases op with
  | set_metadata log_id entry_count => exact fun _ => rfl
  | record_local_submission text =>
    unfold Op.apply record_local_submission
    dsimp only
    split_ifs
    · exact h
    · exact h
    · exact fun _ => rfl
  | reset_navigation => exact fun _ => rfl
  | navigate_up current_text => exact h.up current_text
  | navigate_down => exact h.down
  | on_entry_response response => exact h.alike (alike_response s response)

theorem settled_run (ops : List Op) : Settled (run ops) :=
  List.foldlRecOn ops Op.apply (fun _ => rfl) fun _ h op _ => h.apply op

/-! ## Submissions and restored texts -/

theorem restores_of_settled {s : ChatComposerHistory} (h : Settled s) : Restores s := by
  intro hidle t rs us ds hus hds
  have hcursor : s.history_cursor = none := by simpa [is_browsing] using hidle
  have hstart : Browsing s.total_entries (s.total_entries - 1) t
      (receive (s.navigate_up t).history rs) :=
    (Browsing.start hcursor (h hcursor) (by omega)).alike (alike_receive _ rs)
  have hups := hstart.ups us (by omega)
  have hdowns := hups.downs ds (by omega)
  exact hdowns.leave (by omega)

/-- The first up gives the newest submission, without a question to the core. -/
theorem up_newest {s : ChatComposerHistory} {text : Text} (hcursor : s.history_cursor = none)
    (hlast : s.local_history.getLast? = some text) (current_text : Text) :
    (s.navigate_up current_text).text = some text := by
  have hpos : 0 < s.local_history.length := by
    apply List.length_pos_iff.mpr
    rintro hnil
    rw [hnil] at hlast
    cases hlast
  have hnewest : s.local_history[s.history_entry_count + s.local_history.length - 1 -
      s.history_entry_count]? = some text := by
    rw [← hlast, List.getLast?_eq_getElem?]
    congr 1
    omega
  unfold navigate_up
  rw [if_neg (by unfold total_entries; omega)]
  by_cases horiginal : s.original_text = none
  · simp only [hcursor, horiginal, and_self, if_true]
    unfold populate_history_at_index total_entries
    dsimp only
    rw [if_pos (by omega), hnewest]
  · simp only [hcursor, horiginal, and_false, if_false]
    unfold populate_history_at_index total_entries
    dsimp only
    rw [if_pos (by omega), hnewest]

theorem recalled_of_idle {s : ChatComposerHistory} {text : Text}
    (hcursor : (s.record_local_submission text).history_cursor = none)
    (hlast : (s.record_local_submission text).local_history.getLast? = some text) :
    Recalled s text where
  idle := by simp [is_browsing, hcursor]
  next rs current_text := by
    have halike := alike_receive (s.record_local_submission text) rs
    apply up_newest
    · rw [halike.cursor, hcursor]
    · rw [halike.texts, hlast]

/-- A submission is what the next up gives, unless it repeats the last one while the history is
browsed: then the browsing goes on. -/
theorem recalled_iff (s : ChatComposerHistory) {text : Text} (hsome : text ≠ []) :
    Recalled s text ↔ ¬ (s.is_browsing ∧ s.local_history.getLast? = some text) := by
  have hnonempty : text.isEmpty = false := by simpa using hsome
  by_cases hrepeats : s.local_history.getLast? = some text
  · have hsame : s.record_local_submission text = s := by
      unfold record_local_submission
      rw [hnonempty, if_neg (by simp), if_pos hrepeats]
    constructor
    · rintro ⟨hidle, -⟩ ⟨hbrowsing, -⟩
      rw [hsame, hbrowsing] at hidle
      cases hidle
    · intro hnot
      have hidle : s.history_cursor = none := by
        simpa [is_browsing, hrepeats] using hnot
      apply recalled_of_idle
      · rw [hsame, hidle]
      · rw [hsame, hrepeats]
  · refine iff_of_true ?_ fun h => hrepeats h.2
    have hrecorded : s.record_local_submission text =
        { s with
          local_history := s.local_history ++ [text]
          history_cursor := none
          last_history_text := none
          original_text := none } := by
      unfold record_local_submission
      rw [hnonempty, if_neg (by simp), if_neg hrepeats]
    apply recalled_of_idle
    · rw [hrecorded]
    · rw [hrecorded, List.getLast?_concat]

/-- In every state that a run reaches, whatever responses arrive: downs give back what ups took,
and a submission is recalled exactly if it does not repeat the last one while browsing. -/
theorem history_navigation (ops : List Op) {text : Text} (hsome : text ≠ []) :
    Recalled (run ops) text ∧ Restores (run ops) ↔
      ¬ ((run ops).is_browsing ∧ (run ops).local_history.getLast? = some text) := by
  rw [recalled_iff _ hsome]
  exact and_iff_left (restores_of_settled (settled_run ops))

/-! ### The last submission sent again -/

def hello : Text := "hello".toList

/-- Submitting, going up to the submission and submitting it again. -/
def sent_again : List Op := [.record_local_submission hello, .navigate_up []]

theorem repeat_not_recalled :
    ¬ ∀ (ops : List Op) (text : Text), text ≠ [] → Recalled (run ops) text := by
  intro h
  have hidle := (h sent_again hello (by decide)).idle
  revert hidle
  decide

theorem other_recalled : Recalled (run sent_again) "bye".toList ∧ Restores (run sent_again) :=
  (history_navigation sent_again (by decide)).mpr (by decide)

end Ecode.chat_composer_history
