-- The limit on the text of a user message (`enforce_user_message_limits` in
-- core/src/codex/session.rs, `truncate_middle_bytes` in core/src/codex/streaming.rs): one cut
-- through all the texts of the message, made in each of them.
import Ecode.ResponseItems
import Ecode.Truncate

open Ecode.truncate

namespace Ecode.user_message

/-! ## One cut -/

def TRUNCATION_MARKER : Text := "…truncated…\n".toList

def prefix_end (s : Text) (left_budget : Nat) : Nat :=
  let end_ := min left_budget (Text.len s)
  boundary_down s <|
    match (Text.cut end_ s).bind fun p => rfind '\n' p.1 with
    | some i => i + 1
    | none => end_

def suffix_start (s : Text) (right_budget : Nat) : Nat :=
  let start := Text.len s - right_budget
  boundary_up s (Text.len s) <|
    match (Text.cut start s).bind fun p => find '\n' p.2 with
    | some i => start + i + 1
    | none => start

/-- The text with its middle cut out, whether it was, and where the cut starts and ends. A slice
inside of a character panics. -/
def truncate_middle_bytes (s : Text) (max_bytes : Nat) : Option (Text × Bool × Nat × Nat) :=
  if Text.len s ≤ max_bytes then some (s, false, Text.len s, Text.len s)
  else if max_bytes = 0 then some (Text.trim_end TRUNCATION_MARKER, true, 0, Text.len s)
  else
    let keep := max_bytes - Text.len TRUNCATION_MARKER
    let left_budget := keep / 2
    let right_budget := keep - left_budget
    let prefix_end := prefix_end s left_budget
    let suffix_start := suffix_start s right_budget
    (Text.cut prefix_end s).bind fun front =>
      (Text.cut suffix_start s).map fun tail =>
        (front.1 ++ TRUNCATION_MARKER ++ tail.2, true, prefix_end, suffix_start)

/-! ## The cut in each text -/

/-- An input item of a request. Those that are no message are passed on. -/
inductive ResponseInputItem (β : Type) where
  | Message (role : Text) (content : List ContentItem)
  | Other (item : β)

/-- The texts of a message in one, and where each starts and ends in it. -/
def aggregate (content : List ContentItem) : Text × List (Nat × Nat) :=
  content.foldl (fun acc item =>
    match item with
    | .InputText text =>
      (acc.1 ++ text, acc.2 ++ [(Text.len acc.1, Text.len (acc.1 ++ text))])
    | _ => acc) ([], [])

/-- The state of the loop over the items of the message. -/
structure Rebuild where
  new_content : List ContentItem
  segment_iter : List (Nat × Nat)
  marker_inserted : Bool
  last_text_idx : Option Nat

section rebuild

variable (prefix_end suffix_start : Nat)

/-- What of a segment is before the cut. -/
def prefix_slice (seg : Nat × Nat) (text : Text) : Text :=
  if seg.1 < prefix_end then
    match Text.cut (min seg.2 prefix_end - seg.1) text with
    | some p => p.1
    | none => []
  else []

/-- What of a segment is after the cut. -/
def suffix_slice (seg : Nat × Nat) (text : Text) : Text :=
  if suffix_start < seg.2 then
    match Text.cut (max seg.1 suffix_start - seg.1) text with
    | some p => p.2
    | none => []
  else []

/-- The marker goes into this segment. -/
def inserts_marker (marker_inserted : Bool) (seg : Nat × Nat) : Bool :=
  !marker_inserted && decide (prefix_end < seg.2) && decide (seg.1 < suffix_start)

def rebuild_item (r : Rebuild) : ContentItem → Rebuild
  | .InputText text =>
    match r.segment_iter with
    | [] => r
    | seg :: segment_iter =>
      let inserts := inserts_marker prefix_end suffix_start r.marker_inserted seg
      let new_text := prefix_slice prefix_end seg text ++
        (if inserts then TRUNCATION_MARKER else []) ++ suffix_slice suffix_start seg text
      { new_content := r.new_content ++ [.InputText new_text]
        segment_iter := segment_iter
        marker_inserted := r.marker_inserted || inserts
        last_text_idx := some r.new_content.length }
  | other => { r with new_content := r.new_content ++ [other] }

end rebuild

/-- `push_str` to the text at a place. -/
def push_text (content : List ContentItem) (idx : Nat) (more : Text) : List ContentItem :=
  content.modify idx fun
    | .InputText text => .InputText (text ++ more)
    | other => other

/-- The marker that no segment has taken. -/
def insert_missing_marker (r : Rebuild) : Rebuild :=
  if r.marker_inserted then r
  else
    match r.last_text_idx with
    | some idx => { r with new_content := push_text r.new_content idx TRUNCATION_MARKER }
    | none =>
      { r with
        new_content := r.new_content ++ [.InputText TRUNCATION_MARKER]
        last_text_idx := some r.new_content.length }

def append_note (r : Rebuild) (file_note : Text) : List ContentItem :=
  match r.last_text_idx with
  | some idx => push_text r.new_content idx file_note
  | none => r.new_content ++ [.InputText file_note]

/-- The note on the file with the whole text, from what writing it gave. -/
def file_note : Except Text Text → Text
  | .ok path => "\n\n[Full output saved to: ".toList ++ path ++ "]".toList
  | .error e =>
    "\n\n[Full output was too large and truncation applied; failed to save file: ".toList ++ e ++
      "]".toList

/-- The content within the limit, where `saved` is what writing the whole text to a file gives. -/
def limit_content (tool_output_max_bytes : Nat) (saved : Except Text Text)
    (content : List ContentItem) : Option (List ContentItem) :=
  if (aggregate content).2.isEmpty then some content
  else
    (truncate_middle_bytes (aggregate content).1 tool_output_max_bytes).map fun cut =>
      match cut with
      | (_, false, _, _) => content
      | (_, true, prefix_end, suffix_start) =>
        let r := content.foldl (rebuild_item prefix_end suffix_start)
          { new_content := [], segment_iter := (aggregate content).2, marker_inserted := false
            last_text_idx := none }
        append_note (insert_missing_marker r) (file_note saved)

def enforce_user_message_limits {β : Type} (tool_output_max_bytes : Nat)
    (saved : Except Text Text) : ResponseInputItem β → Option (ResponseInputItem β)
  | .Message role content =>
    if role ≠ "user".toList then some (.Message role content)
    else (limit_content tool_output_max_bytes saved content).map (.Message role)
  | .Other item => some (.Other item)

/-! ## Where the cut is -/

theorem prefix_end_eq {s : Text} {left_budget : Nat} (h : left_budget ≤ Text.len s) :
    prefix_end s left_budget = pick_prefix_end s left_budget := by
  unfold prefix_end pick_prefix_end
  dsimp only
  rw [Nat.min_eq_left h]
  cases hi : (Text.cut left_budget s).bind fun p => rfind '\n' p.1 with
  | none => exact (truncate_on_boundary_len_eq h).symm
  | some i =>
    obtain ⟨p, hp, hfind⟩ := Option.bind_eq_some_iff.mp hi
    obtain ⟨hle, hboundary⟩ := boundary_after_rfind hfind
    rw [(Text.cut_len hp).1] at hle
    exact boundary_down_eq_self (boundary_of_left hp hboundary hle)

theorem suffix_start_eq (s : Text) (right_budget : Nat) :
    suffix_start s right_budget = pick_suffix_start s right_budget := by
  unfold suffix_start pick_suffix_start
  dsimp only
  cases hi : (Text.cut (Text.len s - right_budget) s).bind fun p => find '\n' p.2 with
  | none => rfl
  | some i =>
    obtain ⟨p, hp, hfind⟩ := Option.bind_eq_some_iff.mp hi
    have hboundary : is_char_boundary s (Text.len s - right_budget + i + 1) = true := by
      rw [Nat.add_assoc]
      exact boundary_of_right hp (boundary_after_find hfind).2
    exact boundary_up_eq_self hboundary

/-- Where a text that is too long is cut: at two boundaries in order, with what is left and the
marker within the limit. -/
structure IsCut (s : Text) (max_bytes start stop : Nat) : Prop where
  start_boundary : is_char_boundary s start = true
  stop_boundary : is_char_boundary s stop = true
  in_order : start < stop
  within : stop ≤ Text.len s
  fits : Text.len TRUNCATION_MARKER ≤ max_bytes →
    start + Text.len TRUNCATION_MARKER + (Text.len s - stop) ≤ max_bytes

theorem truncate_middle_bytes_spec {s : Text} {max_bytes : Nat} (h : max_bytes < Text.len s) :
    ∃ out start stop, truncate_middle_bytes s max_bytes = some (out, true, start, stop) ∧
      IsCut s max_bytes start stop := by
  unfold truncate_middle_bytes
  rw [if_neg (by omega)]
  by_cases hzero : max_bytes = 0
  · rw [if_pos hzero]
    have hmarker : Text.len TRUNCATION_MARKER = 16 := by decide
    refine ⟨_, 0, Text.len s, rfl, ?_, is_char_boundary_len s, by omega, Nat.le_refl _, by omega⟩
    simp [is_char_boundary, Text.cut_zero]
  · rw [if_neg hzero]
    generalize hkeep : max_bytes - Text.len TRUNCATION_MARKER = keep
    dsimp only
    rw [prefix_end_eq (by omega), suffix_start_eq]
    obtain ⟨hle, hstart⟩ := pick_prefix_end_boundary (show keep / 2 ≤ Text.len s by omega)
    obtain ⟨hge, hlen, hstop⟩ := pick_suffix_start_boundary s (keep - keep / 2)
    obtain ⟨front, hfront⟩ := Option.isSome_iff_exists.mp hstart
    obtain ⟨tail, htail⟩ := Option.isSome_iff_exists.mp hstop
    rw [hfront, htail]
    exact ⟨_, _, _, rfl, hstart, hstop, by omega, hlen, by omega⟩

/-! ## The texts of a message -/

def text_of : ContentItem → Text
  | .InputText text => text
  | _ => []

def texts (content : List ContentItem) : Text := content.flatMap text_of

/-- Whether a text stands there, or which other item. -/
def place : ContentItem → Option ContentItem
  | .InputText _ => none
  | other => some other

/-- The segments of the texts that start at byte `o`. -/
def segments_from (o : Nat) : List ContentItem → List (Nat × Nat)
  | [] => []
  | .InputText text :: content =>
    (o, o + Text.len text) :: segments_from (o + Text.len text) content
  | _ :: content => segments_from o content

theorem texts_cons (item : ContentItem) (content : List ContentItem) :
    texts (item :: content) = text_of item ++ texts content := List.flatMap_cons

theorem texts_of_no_segment {o : Nat} {content : List ContentItem}
    (h : segments_from o content = []) : texts content = [] := by
  induction content with
  | nil => rfl
  | cons item content ih =>
    rw [texts_cons]
    cases item with
    | InputText text => cases h
    | InputImage image_url => exact ih h
    | OutputText text => exact ih h

theorem texts_append (a b : List ContentItem) : texts (a ++ b) = texts a ++ texts b :=
  List.flatMap_append

theorem aggregate_eq (content : List ContentItem) :
    aggregate content = (texts content, segments_from 0 content) := by
  have h : ∀ (acc : Text × List (Nat × Nat)),
      content.foldl (fun acc item =>
        match item with
        | .InputText text =>
          (acc.1 ++ text, acc.2 ++ [(Text.len acc.1, Text.len (acc.1 ++ text))])
        | _ => acc) acc =
      (acc.1 ++ texts content, acc.2 ++ segments_from (Text.len acc.1) content) := by
    induction content with
    | nil => simp [texts, segments_from]
    | cons item content ih =>
      intro acc
      rw [List.foldl_cons, ih, texts_cons]
      cases item with
      | InputText text => simp [text_of, segments_from, Text.len_append]
      | InputImage image_url => simp [text_of, segments_from]
      | OutputText text => simp [text_of, segments_from]
  exact h ([], [])

/-! ## The slices of a segment -/

section slices

variable {start stop o : Nat} {text rest : Text}

theorem prefix_slice_before (ho : o ≤ start) (h : o + Text.len text ≤ start) :
    prefix_slice start (o, o + Text.len text) text = text := by
  unfold prefix_slice
  dsimp only
  split
  · rw [Nat.min_eq_left h, Nat.add_sub_cancel_left, Text.cut_self]
  · exact (Text.len_eq_zero.mp (by omega)).symm

theorem prefix_slice_at {p : Text × Text} (ho : o ≤ start) (h : start < o + Text.len text)
    (hcut : Text.cut (start - o) (text ++ rest) = some p) :
    prefix_slice start (o, o + Text.len text) text = p.1 := by
  rw [Text.cut_append_left (by omega)] at hcut
  obtain ⟨q, hq, rfl⟩ := Option.map_eq_some_iff.mp hcut
  unfold prefix_slice
  dsimp only
  split
  · rw [Nat.min_eq_right h.le, hq]
  · exact (Text.len_eq_zero.mp (by rw [(Text.cut_len hq).1]; omega)).symm

theorem prefix_slice_after (ho : start ≤ o) :
    prefix_slice start (o, o + Text.len text) text = [] :=
  if_neg (by dsimp only; omega)

/-- What is after the cut is what is after it in the segment, and then in the texts that follow. -/
theorem suffix_slice_append {p : Text × Text}
    (hcut : Text.cut (stop - o) (text ++ rest) = some p) :
    ∃ q, Text.cut (stop - (o + Text.len text)) rest = some q ∧
      p.2 = suffix_slice stop (o, o + Text.len text) text ++ q.2 := by
  unfold suffix_slice
  dsimp only
  split
  · next h =>
    rw [Text.cut_append_left (by omega)] at hcut
    obtain ⟨q, hq, rfl⟩ := Option.map_eq_some_iff.mp hcut
    rw [show max o stop - o = stop - o by omega, hq, Nat.sub_eq_zero_of_le h.le]
    exact ⟨_, Text.cut_zero rest, rfl⟩
  · next h =>
    rw [show stop - o = Text.len text + (stop - (o + Text.len text)) by omega,
      Text.cut_append_right] at hcut
    obtain ⟨q, hq, rfl⟩ := Option.map_eq_some_iff.mp hcut
    exact ⟨q, hq, rfl⟩

end slices

/-! ## The loop -/

section loop

variable {start stop o : Nat} {r : Rebuild} {content : List ContentItem}

/-- What the loop makes of a text. -/
def new_text (start stop : Nat) (marker_inserted : Bool) (seg : Nat × Nat) (text : Text) : Text :=
  prefix_slice start seg text ++
    (if inserts_marker start stop marker_inserted seg then TRUNCATION_MARKER else []) ++
    suffix_slice stop seg text

/-- The turn of the loop for a text. -/
theorem rebuild_text (start stop : Nat) {text : Text}
    (hsegments : r.segment_iter = segments_from o (.InputText text :: content)) :
    (rebuild_item start stop r (.InputText text)).new_content = r.new_content ++
        [.InputText (new_text start stop r.marker_inserted (o, o + Text.len text) text)] ∧
      (rebuild_item start stop r (.InputText text)).segment_iter =
        segments_from (o + Text.len text) content ∧
      (rebuild_item start stop r (.InputText text)).marker_inserted =
        (r.marker_inserted || inserts_marker start stop r.marker_inserted (o, o + Text.len text)) ∧
      (rebuild_item start stop r (.InputText text)).last_text_idx = some r.new_content.length := by
  unfold rebuild_item
  rw [hsegments]
  exact ⟨rfl, rfl, rfl, rfl⟩

/-- The loop after its turn for another item. -/
theorem rebuild_other (start stop o : Nat) (r : Rebuild) (content : List ContentItem)
    {item : ContentItem} (h : place item = some item) :
    rebuild_item start stop r item = { r with new_content := r.new_content ++ [item] } ∧
      segments_from o (item :: content) = segments_from o content ∧ text_of item = [] := by
  cases item with
  | InputText text => cases h
  | InputImage image_url => exact ⟨rfl, rfl, rfl⟩
  | OutputText text => exact ⟨rfl, rfl, rfl⟩

theorem place_cases (item : ContentItem) :
    (∃ text, item = .InputText text) ∨ place item = some item := by
  cases item with
  | InputText text => exact .inl ⟨text, rfl⟩
  | InputImage image_url => exact .inr rfl
  | OutputText text => exact .inr rfl

/-- Behind the marker the loop adds what is after the cut. -/
theorem loop_after_marker {p : Text × Text}
    (hsegments : r.segment_iter = segments_from o content) (hmarker : r.marker_inserted = true)
    (ho : start ≤ o) (hcut : Text.cut (stop - o) (texts content) = some p) :
    texts (content.foldl (rebuild_item start stop) r).new_content = texts r.new_content ++ p.2 ∧
      (content.foldl (rebuild_item start stop) r).marker_inserted = true := by
  induction content generalizing r o p with
  | nil =>
    have hnil : p.1 ++ p.2 = [] := Text.cut_append hcut
    rw [(List.append_eq_nil_iff.mp hnil).2, List.append_nil]
    exact ⟨rfl, hmarker⟩
  | cons item content ih =>
    rw [List.foldl_cons]
    rw [texts_cons] at hcut
    rcases place_cases item with ⟨text, rfl⟩ | hother
    · change Text.cut (stop - o) (text ++ texts content) = some p at hcut
      obtain ⟨q, hq, hp⟩ := suffix_slice_append hcut
      obtain ⟨hnew, hrest, hins, -⟩ := rebuild_text start stop hsegments
      rw [hmarker, Bool.true_or] at hins
      obtain ⟨htexts, hend⟩ := ih hrest hins (by omega) hq
      refine ⟨?_, hend⟩
      have hmarked :
          inserts_marker start stop r.marker_inserted (o, o + Text.len text) = false := by
        simp [inserts_marker, hmarker]
      rw [htexts, hnew, texts_append, hp]
      simp [texts, text_of, new_text, hmarked, prefix_slice_after ho]
    · obtain ⟨hitem, hrest, hempty⟩ := rebuild_other start stop o r content hother
      rw [hempty, List.nil_append] at hcut
      rw [hitem]
      obtain ⟨htexts, hend⟩ := ih (r := { r with new_content := r.new_content ++ [item] })
        (hsegments.trans hrest) hmarker ho hcut
      refine ⟨?_, hend⟩
      rw [htexts, texts_append]
      simp [texts, hempty]

/-- Up to the marker the loop adds what is before the cut; then come the marker and what is after
the cut. The text that the cut starts in gets the marker. -/
theorem loop_before_marker {p q : Text × Text}
    (hsegments : r.segment_iter = segments_from o content) (hmarker : r.marker_inserted = false)
    (ho : o ≤ start) (horder : start < stop)
    (hstart : Text.cut (start - o) (texts content) = some p)
    (hstop : Text.cut (stop - o) (texts content) = some q) :
    texts (content.foldl (rebuild_item start stop) r).new_content =
        texts r.new_content ++ (p.1 ++ TRUNCATION_MARKER ++ q.2) ∧
      (content.foldl (rebuild_item start stop) r).marker_inserted = true := by
  induction content generalizing r o p q with
  | nil =>
    -- the cut stops within the texts
    have hlen := Text.cut_len hstop
    have hnil : Text.len (texts []) = 0 := rfl
    omega
  | cons item content ih =>
    rw [List.foldl_cons]
    rw [texts_cons] at hstart hstop
    rcases place_cases item with ⟨text, rfl⟩ | hother
    · change Text.cut (start - o) (text ++ texts content) = some p at hstart
      change Text.cut (stop - o) (text ++ texts content) = some q at hstop
      obtain ⟨hnew, hrest, hins, -⟩ := rebuild_text start stop hsegments
      obtain ⟨q', hq', hq⟩ := suffix_slice_append hstop
      by_cases hin : o + Text.len text ≤ start
      · -- the whole text is before the cut
        have hmarked :
            inserts_marker start stop r.marker_inserted (o, o + Text.len text) = false := by
          simp [inserts_marker]
          omega
        have hsuffix : suffix_slice stop (o, o + Text.len text) text = [] :=
          if_neg (by dsimp only; omega)
        rw [hmarked, hmarker, Bool.false_or] at hins
        rw [show start - o = Text.len text + (start - (o + Text.len text)) by omega,
          Text.cut_append_right] at hstart
        obtain ⟨p', hp', rfl⟩ := Option.map_eq_some_iff.mp hstart
        obtain ⟨htexts, hend⟩ := ih hrest hins hin hp' hq'
        refine ⟨?_, hend⟩
        rw [htexts, hnew, texts_append, hq]
        simp [texts, text_of, new_text, hmarked, hsuffix, prefix_slice_before ho hin]
      · have hmarked :
            inserts_marker start stop r.marker_inserted (o, o + Text.len text) = true := by
          simp [inserts_marker, hmarker]
          omega
        rw [hmarked, hmarker, Bool.false_or] at hins
        obtain ⟨htexts, hend⟩ := loop_after_marker hrest hins (Nat.lt_of_not_le hin).le hq'
        refine ⟨?_, hend⟩
        rw [htexts, hnew, texts_append, hq]
        simp [texts, text_of, new_text, hmarked, prefix_slice_at ho (by omega) hstart]
    · obtain ⟨hitem, hrest, hempty⟩ := rebuild_other start stop o r content hother
      rw [hempty, List.nil_append] at hstart hstop
      rw [hitem]
      obtain ⟨htexts, hend⟩ := ih (r := { r with new_content := r.new_content ++ [item] })
        (hsegments.trans hrest) hmarker ho hstart hstop
      refine ⟨?_, hend⟩
      rw [htexts, texts_append]
      simp [texts, hempty]

/-- The last text that the loop has seen is at the place that it remembers. -/
def RemembersText (r : Rebuild) : Prop :=
  ∀ idx ∈ r.last_text_idx, ∃ before text after,
    r.new_content = before ++ .InputText text :: after ∧ before.length = idx ∧ texts after = []

/-- Every item stays in its place, and a text is remembered when there is one. -/
theorem loop_places (start stop : Nat) (hsegments : r.segment_iter = segments_from o content)
    (hlast : RemembersText r) :
    (content.foldl (rebuild_item start stop) r).new_content.map place =
        r.new_content.map place ++ content.map place ∧
      RemembersText (content.foldl (rebuild_item start stop) r) ∧
      (texts content ≠ [] ∨ r.last_text_idx.isSome →
        (content.foldl (rebuild_item start stop) r).last_text_idx.isSome) := by
  induction content generalizing r o with
  | nil => exact ⟨by simp, hlast, by simp [texts]⟩
  | cons item content ih =>
    rw [List.foldl_cons]
    rcases place_cases item with ⟨text, rfl⟩ | hother
    · obtain ⟨hnew, hrest, -, hidx⟩ := rebuild_text start stop hsegments
      have hlast' : RemembersText (rebuild_item start stop r (.InputText text)) := by
        intro idx hmem
        rw [hidx, Option.mem_some_iff] at hmem
        exact ⟨r.new_content, _, [], hnew, hmem, rfl⟩
      obtain ⟨hplaces, hremembers, hsome⟩ := ih hrest hlast'
      refine ⟨?_, hremembers, fun _ => hsome (.inr (by rw [hidx]; rfl))⟩
      rw [hplaces, hnew]
      simp [place]
    · obtain ⟨hitem, hrest, hempty⟩ := rebuild_other start stop o r content hother
      rw [hitem]
      have hlast' : RemembersText { r with new_content := r.new_content ++ [item] } := by
        intro idx hmem
        obtain ⟨before, text, after, hsplit, hlen, hafter⟩ := hlast idx hmem
        refine ⟨before, text, after ++ [item], ?_, hlen, ?_⟩
        · dsimp only
          rw [hsplit, List.append_assoc, List.cons_append]
        · rw [texts_append, hafter]
          simp [texts, hempty]
      obtain ⟨hplaces, hremembers, hsome⟩ :=
        ih (r := { r with new_content := r.new_content ++ [item] }) (hsegments.trans hrest) hlast'
      refine ⟨?_, hremembers, ?_⟩
      · rw [hplaces]
        simp
      · rw [texts_cons, hempty, List.nil_append]
        exact hsome

end loop

/-! ## The note -/

theorem push_text_at (before after : List ContentItem) (text more : Text) :
    push_text (before ++ .InputText text :: after) before.length more =
      before ++ .InputText (text ++ more) :: after := by
  unfold push_text
  induction before with
  | nil => rfl
  | cons item before ih => rw [List.cons_append, List.length_cons, List.modify_succ_cons, ih]; rfl

/-- The note goes behind all the texts. -/
theorem append_note_texts {r : Rebuild} (hlast : RemembersText r) (hsome : r.last_text_idx.isSome)
    (note : Text) :
    texts (append_note r note) = texts r.new_content ++ note ∧
      (append_note r note).map place = r.new_content.map place := by
  obtain ⟨idx, hidx⟩ := Option.isSome_iff_exists.mp hsome
  obtain ⟨before, text, after, hsplit, rfl, hafter⟩ := hlast idx hidx
  unfold append_note
  rw [hidx, hsplit]
  dsimp only
  rw [push_text_at]
  constructor
  · simp [texts_append, texts_cons, text_of, hafter]
  · simp [place]

/-- A message of a user within the limit, and every other item, stays as it is. -/
theorem enforce_within {β : Type} {limit : Nat} {saved : Except Text Text}
    {item : ResponseInputItem β}
    (h : ∀ content, item = .Message "user".toList content → Text.len (texts content) ≤ limit) :
    enforce_user_message_limits limit saved item = some item := by
  cases item with
  | Other item => rfl
  | Message role content =>
    by_cases hrole : role = "user".toList
    · have hcontent : limit_content limit saved content = some content := by
        unfold limit_content
        rw [aggregate_eq]
        split
        · rfl
        · unfold truncate_middle_bytes
          rw [if_pos (h content (by rw [hrole]))]
          rfl
      simp [enforce_user_message_limits, hrole, hcontent]
    · exact if_pos hrole

/-- A message of a user over the limit: one cut through all its texts. -/
theorem enforce_over (β : Type) {limit : Nat} (saved : Except Text Text)
    {content : List ContentItem} (h : limit < Text.len (texts content)) :
    ∃ out start stop p q content', truncate_middle_bytes (texts content) limit =
        some (out, true, start, stop) ∧ IsCut (texts content) limit start stop ∧
      Text.cut start (texts content) = some p ∧ Text.cut stop (texts content) = some q ∧
      enforce_user_message_limits limit saved
        (.Message "user".toList content : ResponseInputItem β) =
          some (.Message "user".toList content') ∧
      texts content' = p.1 ++ TRUNCATION_MARKER ++ q.2 ++ file_note saved ∧
      content'.map place = content.map place := by
  obtain ⟨out, start, stop, htrunc, hcut⟩ := truncate_middle_bytes_spec h
  obtain ⟨p, hp⟩ := Option.isSome_iff_exists.mp hcut.start_boundary
  obtain ⟨q, hq⟩ := Option.isSome_iff_exists.mp hcut.stop_boundary
  have hne : texts content ≠ [] := by
    intro hnil
    rw [hnil] at h
    exact Nat.not_lt_zero _ h
  -- the loop starts with all the segments and nothing behind it
  generalize hstart : ({ new_content := [], segment_iter := segments_from 0 content
                         marker_inserted := false, last_text_idx := none } : Rebuild) = r
  have hsegments : r.segment_iter = segments_from 0 content := by rw [← hstart]
  have hmarker : r.marker_inserted = false := by rw [← hstart]
  have hnew : r.new_content = [] := by rw [← hstart]
  have hlast : RemembersText r := by
    intro idx hidx
    rw [← hstart] at hidx
    cases hidx
  obtain ⟨htexts, hins⟩ := loop_before_marker hsegments hmarker (Nat.zero_le start) hcut.in_order
    hp hq
  obtain ⟨hplaces, hremembers, hsome⟩ := loop_places start stop hsegments hlast
  generalize hend : content.foldl (rebuild_item start stop) r = last at *
  obtain ⟨hnote, hnote_places⟩ := append_note_texts hremembers (hsome (.inl hne)) (file_note saved)
  refine ⟨out, start, stop, p, q, append_note last (file_note saved), htrunc, hcut, hp, hq, ?_, ?_,
    ?_⟩
  · have hsome_segment : (segments_from 0 content).isEmpty = false := by
      rw [List.isEmpty_eq_false_iff]
      exact fun hnil => hne (texts_of_no_segment hnil)
    have hcontent : limit_content limit saved content =
        some (append_note last (file_note saved)) := by
      unfold limit_content
      rw [aggregate_eq]
      dsimp only
      rw [hsome_segment, if_neg (by simp), htrunc]
      dsimp only [Option.map_some]
      rw [hstart, hend, insert_missing_marker, if_pos hins]
    simp [enforce_user_message_limits, hcontent]
  · rw [hnote, htexts, hnew]
    simp [texts]
  · rw [hnote_places, hplaces, hnew]
    rfl

/-- An oversized message of a user is cut as one text, however it is segmented: what comes back is a
front of all its texts, the marker, an end of all its texts and the note, at the places where
`truncate_middle_bytes` cuts. The other items stay in their places. -/
theorem user_message_is_cut_as_one_text {β : Type} (limit : Nat) (saved : Except Text Text)
    (item : ResponseInputItem β) :
    enforce_user_message_limits limit saved item = some item ∨
      ∃ content content' out start stop p q,
        item = .Message "user".toList content ∧
        enforce_user_message_limits limit saved item =
          some (.Message "user".toList content') ∧
        truncate_middle_bytes (texts content) limit = some (out, true, start, stop) ∧
        texts content' = p ++ TRUNCATION_MARKER ++ q ++ file_note saved ∧
        (p <+: texts content ∧ Text.len p = start) ∧
        (q <:+ texts content ∧ Text.len q = Text.len (texts content) - stop) ∧
        Text.len p + Text.len q < Text.len (texts content) ∧
        (Text.len TRUNCATION_MARKER ≤ limit →
          Text.len p + Text.len TRUNCATION_MARKER + Text.len q ≤ limit) ∧
        content'.map place = content.map place := by
  by_cases h : ∃ content, item = .Message "user".toList content ∧ limit < Text.len (texts content)
  · obtain ⟨content, rfl, hover⟩ := h
    obtain ⟨out, start, stop, p, q, content', htrunc, hcut, hp, hq, henforce, htexts, hplaces⟩ :=
      enforce_over β saved hover
    have hplen := Text.cut_len hp
    have hqlen := Text.cut_len hq
    have horder := hcut.in_order
    have hwithin := hcut.within
    have hq2 : Text.len q.2 = Text.len (texts content) - stop := by omega
    refine .inr ⟨content, content', out, start, stop, p.1, q.2, rfl, henforce, htrunc, htexts,
      ⟨⟨p.2, Text.cut_append hp⟩, hplen.1⟩, ⟨⟨q.1, Text.cut_append hq⟩, hq2⟩, by omega, ?_, hplaces⟩
    intro hmarker
    rw [hplen.1, hq2]
    exact hcut.fits hmarker
  · apply Or.inl
    apply enforce_within
    intro content hitem
    exact Nat.le_of_not_lt fun hover => h ⟨content, hitem, hover⟩

end Ecode.user_message
