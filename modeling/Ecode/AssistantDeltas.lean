-- What a stream of the assistant keeps of its deltas (core/src/history/state.rs): the end of
-- all that was appended, with a count of the bytes that are gone.
import Ecode.HistoryState
import Ecode.ExecStreamTail

namespace Ecode.history

open HistoryState

variable {β : Type}

/-! ## Pruning -/

/-- The text of deltas, one after another. -/
def delta_text (deltas : List AssistantStreamDelta) : Text :=
  deltas.flatMap AssistantStreamDelta.delta

theorem len_delta_text (deltas : List AssistantStreamDelta) :
    (deltas.map fun d => Text.len d.delta).sum = Text.len (delta_text deltas) := by
  induction deltas with
  | nil => rfl
  | cons first rest ih =>
    have htext : delta_text (first :: rest) = first.delta ++ delta_text rest := List.flatMap_cons
    rw [List.map_cons, List.sum_cons, ih, htext, Text.len_append]

/-- What is drained is a part of the text, at least as many bytes as asked for. -/
theorem drain_to_boundary_spec {n : Nat} {t : Text} (h : n ≤ Text.len t) :
    ∃ drained, t = drained ++ (drain_to_boundary n t).2 ∧
      Text.len drained = (drain_to_boundary n t).1 ∧ n ≤ Text.len drained := by
  induction t generalizing n with
  | nil =>
    obtain rfl := Nat.le_zero.mp h
    exact ⟨[], rfl, rfl, Nat.le_refl _⟩
  | cons c t ih =>
    cases n with
    | zero => exact ⟨[], rfl, rfl, Nat.le_refl _⟩
    | succ n =>
      rw [Text.len_cons] at h
      obtain ⟨drained, heq, hlen, hle⟩ := @ih (n + 1 - c.utf8Size) (by omega)
      rw [drain_to_boundary]
      refine ⟨c :: drained, congrArg (c :: ·) heq, ?_, ?_⟩
      · rw [Text.len_cons, hlen]
      · rw [Text.len_cons]
        omega

/-- Pruning takes a beginning of the text off and counts it. -/
structure PrunedTo (max_bytes : Nat) (before : Text) (kept : Text) (truncated : Nat) : Prop where
  split : ∃ dropped, before = dropped ++ kept ∧ truncated = Text.len dropped
  limit : Text.len kept ≤ max_bytes

/-- The first text goes as a whole. -/
theorem PrunedTo.cons {max_bytes truncated : Nat} {first before kept : Text}
    (h : PrunedTo max_bytes before kept truncated)
    (hfits : Text.len (first ++ before) ≤ U64_MAX) :
    PrunedTo max_bytes (first ++ before) kept (saturating_add (Text.len first) truncated) := by
  obtain ⟨dropped, rfl, rfl⟩ := h.split
  refine ⟨⟨first ++ dropped, (List.append_assoc _ _ _).symm, ?_⟩, h.limit⟩
  rw [Text.len_append, Text.len_append] at hfits
  rw [Text.len_append]
  exact Nat.min_eq_left (by omega)

theorem prune_deltas_spec (max_bytes : Nat) (deltas : List AssistantStreamDelta)
    (hfits : Text.len (delta_text deltas) ≤ U64_MAX) :
    PrunedTo max_bytes (delta_text deltas)
      (delta_text (prune_deltas max_bytes deltas (Text.len (delta_text deltas))).1)
      (prune_deltas max_bytes deltas (Text.len (delta_text deltas))).2 := by
  induction deltas with
  | nil => exact ⟨⟨[], rfl, rfl⟩, Nat.zero_le _⟩
  | cons first rest ih =>
    have htext : delta_text (first :: rest) = first.delta ++ delta_text rest := List.flatMap_cons
    rw [htext] at hfits ⊢
    have hlen := Text.len_append first.delta (delta_text rest)
    have hrest : Text.len (first.delta ++ delta_text rest) - Text.len first.delta =
        Text.len (delta_text rest) := by omega
    have hgone := (ih (by omega)).cons hfits
    rw [prune_deltas]
    dsimp only
    split
    · next hle => exact ⟨⟨[], htext.symm, rfl⟩, by rw [htext]; exact hle⟩
    · next hover =>
      rw [hrest]
      split
      · exact hgone
      · next hpart =>
        obtain ⟨drained, heq, hdrain, hle⟩ := @drain_to_boundary_spec
          (Text.len (first.delta ++ delta_text rest) - max_bytes) first.delta (by omega)
        rw [← hdrain]
        split
        · exact hgone
        · have hsplit := congrArg Text.len heq
          rw [Text.len_append] at hsplit
          refine ⟨⟨drained, ?_, rfl⟩, ?_⟩
          · change first.delta ++ delta_text rest = drained ++ (_ ++ delta_text rest)
            rw [← List.append_assoc, ← heq]
          · change Text.len (_ ++ delta_text rest) ≤ max_bytes
            rw [Text.len_append]
            dsimp only
            omega

/-! ## Appending -/

@[simp] theorem delta_text_append (a b : List AssistantStreamDelta) :
    delta_text (a ++ b) = delta_text a ++ delta_text b :=
  List.flatMap_append

@[simp] theorem delta_text_singleton (delta : AssistantStreamDelta) :
    delta_text [delta] = delta.delta :=
  List.append_nil _

/-- The limit is not zero: pruning is the loop. -/
theorem prune_assistant_stream_spec (deltas : List AssistantStreamDelta)
    (hfits : Text.len (delta_text deltas) ≤ U64_MAX) :
    PrunedTo MAX_ASSISTANT_STREAM_RETAINED_BYTES (delta_text deltas)
      (delta_text (prune_assistant_stream deltas MAX_ASSISTANT_STREAM_RETAINED_BYTES).1)
      (prune_assistant_stream deltas MAX_ASSISTANT_STREAM_RETAINED_BYTES).2 := by
  have hlimit : MAX_ASSISTANT_STREAM_RETAINED_BYTES ≠ 0 := by decide
  rw [prune_assistant_stream, len_delta_text, if_neg hlimit]
  apply prune_deltas_spec
  exact hfits

/-- Joined to the last delta or put after it, the new text is at the end. -/
theorem append_assistant_delta_spec (deltas : List AssistantStreamDelta)
    (delta : AssistantStreamDelta)
    (hfits : Text.len (delta_text deltas ++ delta.delta) ≤ U64_MAX) :
    PrunedTo MAX_ASSISTANT_STREAM_RETAINED_BYTES (delta_text deltas ++ delta.delta)
      (delta_text (append_assistant_delta deltas delta).1)
      (append_assistant_delta deltas delta).2 := by
  have hpushed : delta_text (deltas ++ [delta]) = delta_text deltas ++ delta.delta := by simp
  rw [append_assistant_delta]
  split
  · next last hlast =>
    obtain ⟨older, rfl⟩ := List.getLast?_eq_some_iff.mp hlast
    split
    · have hjoined : delta_text ((older ++ [last]).dropLast ++
          [{ last with delta := last.delta ++ delta.delta }]) =
            delta_text (older ++ [last]) ++ delta.delta := by
        simp
      rw [← hjoined] at hfits ⊢
      apply prune_assistant_stream_spec
      exact hfits
    · rw [← hpushed] at hfits ⊢
      apply prune_assistant_stream_spec
      exact hfits
  · rw [← hpushed] at hfits ⊢
    apply prune_assistant_stream_spec
    exact hfits

/-! ## A stream over its updates -/

/-- One `UpsertAssistantStream` of a stream. -/
structure StreamUpdate (β : Type) where
  now : Nat
  preview_markdown : Text
  delta : Option AssistantStreamDelta
  metadata : Option (MessageMetadata β)

/-- The text an update appends. -/
def StreamUpdate.text (u : StreamUpdate β) : Text :=
  match u.delta with
  | some delta => delta.delta
  | none => []

def StreamUpdate.update (state : AssistantStreamState β) (u : StreamUpdate β) :
    AssistantStreamState β :=
  updated_stream u.now state u.preview_markdown u.delta u.metadata

def StreamUpdate.start (stream_id : Text) (u : StreamUpdate β) : AssistantStreamState β :=
  new_stream u.now stream_id u.preview_markdown u.delta u.metadata

/-- All that updates append. -/
def appended_text (updates : List (StreamUpdate β)) : Text :=
  updates.flatMap StreamUpdate.text

/-- The deltas are the end of all that was appended, within the limit, and the count is that
of the bytes before them. -/
structure DeltasKept (state : AssistantStreamState β) (appended : Text) : Prop where
  suffix : delta_text state.deltas <:+ appended
  limit : Text.len (delta_text state.deltas) ≤ MAX_ASSISTANT_STREAM_RETAINED_BYTES
  count : state.truncated_prefix_bytes + Text.len (delta_text state.deltas) = Text.len appended

/-- A stream that has `truncated` more bytes gone than one whose text is `before`. -/
theorem DeltasKept.of_pruned {state : AssistantStreamState β} {gone truncated : Nat}
    {missing before : Text} (hmissing : gone = Text.len missing)
    (hpruned : PrunedTo MAX_ASSISTANT_STREAM_RETAINED_BYTES before (delta_text state.deltas)
      truncated)
    (hcount : state.truncated_prefix_bytes = saturating_add gone truncated)
    (hfits : Text.len (missing ++ before) ≤ U64_MAX) : DeltasKept state (missing ++ before) := by
  obtain ⟨dropped, rfl, rfl⟩ := hpruned.split
  simp only [Text.len_append] at hfits
  refine ⟨⟨missing ++ dropped, by simp⟩, hpruned.limit, ?_⟩
  have hexact : saturating_add gone (Text.len dropped) = gone + Text.len dropped :=
    Nat.min_eq_left (by omega)
  rw [hcount, hexact, hmissing]
  simp only [Text.len_append]
  omega

theorem DeltasKept.start (stream_id : Text) (u : StreamUpdate β)
    (hfits : Text.len u.text ≤ U64_MAX) : DeltasKept (u.start stream_id) u.text := by
  obtain ⟨now, preview_markdown, delta, metadata⟩ := u
  cases delta with
  | none => exact ⟨List.nil_suffix, Nat.zero_le _, rfl⟩
  | some delta =>
    have hpruned := append_assistant_delta_spec [] delta hfits
    obtain ⟨dropped, hsplit, htruncated⟩ := hpruned.split
    have hlen := congrArg Text.len hsplit
    rw [Text.len_append dropped, ← htruncated] at hlen
    exact ⟨⟨dropped, hsplit.symm⟩, hpruned.limit, hlen.symm⟩

theorem DeltasKept.update {state : AssistantStreamState β} {appended : Text}
    (h : DeltasKept state appended) (u : StreamUpdate β)
    (hfits : Text.len (appended ++ u.text) ≤ U64_MAX) :
    DeltasKept (StreamUpdate.update state u) (appended ++ u.text) := by
  obtain ⟨now, preview_markdown, delta, metadata⟩ := u
  cases delta with
  | none =>
    have hsame : appended ++ StreamUpdate.text ⟨now, preview_markdown, none, metadata⟩ =
        appended := List.append_nil _
    rw [hsame]
    cases metadata <;> exact ⟨h.suffix, h.limit, h.count⟩
  | some delta =>
    -- What is missing before the update is a text of `truncated_prefix_bytes` bytes.
    obtain ⟨missing, hmissing⟩ := h.suffix
    have hcount := h.count
    rw [← hmissing, Text.len_append] at hcount
    have hgone : state.truncated_prefix_bytes = Text.len missing := by omega
    rw [← hmissing, List.append_assoc] at hfits ⊢
    have hbefore : Text.len (delta_text state.deltas ++ delta.delta) ≤ U64_MAX := by
      rw [Text.len_append] at hfits
      exact Nat.le_trans (Nat.le_add_left _ _) hfits
    have hpruned := append_assistant_delta_spec state.deltas delta hbefore
    cases metadata <;> exact DeltasKept.of_pruned hgone hpruned rfl hfits

theorem appended_text_concat (updates : List (StreamUpdate β)) (u : StreamUpdate β) :
    appended_text (updates ++ [u]) = appended_text updates ++ u.text := by
  simp [appended_text]

/-- However a stream's text comes in: after each update the deltas are the end of all that was
appended, and `truncated_prefix_bytes` counts the rest. -/
theorem stream_deltas_kept (stream_id : Text) (first : StreamUpdate β)
    (updates : List (StreamUpdate β))
    (hfits : Text.len (appended_text (first :: updates)) ≤ U64_MAX) :
    DeltasKept (updates.foldl StreamUpdate.update (first.start stream_id))
      (appended_text (first :: updates)) := by
  induction updates using List.reverseRecOn with
  | nil =>
    have hfirst : appended_text [first] = first.text := List.append_nil _
    rw [hfirst] at hfits ⊢
    apply DeltasKept.start
    exact hfits
  | append_singleton updates u ih =>
    have hmore := appended_text_concat (first :: updates) u
    rw [← List.cons_append, hmore] at hfits ⊢
    rw [List.foldl_append]
    apply DeltasKept.update _ u hfits
    apply ih
    rw [Text.len_append] at hfits
    omega

/-- An update that brings a text. -/
def text_update (sequence : Nat) (delta : Text) : StreamUpdate Unit :=
  ⟨0, [], some ⟨delta, some sequence, 0⟩, none⟩

theorem two_deltas_kept :
    DeltasKept ([text_update 1 ['b']].foldl StreamUpdate.update
      ((text_update 0 ['a']).start [])) (appended_text [text_update 0 ['a'], text_update 1 ['b']]) :=
  stream_deltas_kept [] (text_update 0 ['a']) [text_update 1 ['b']] (by decide)

theorem count_le_max (state : AssistantStreamState Unit) (sequence : Nat) (delta : Text) :
    (StreamUpdate.update state (text_update sequence delta)).truncated_prefix_bytes ≤ U64_MAX :=
  Nat.min_le_right _ _

theorem len_three_updates (delta : Text) :
    Text.len (appended_text [text_update 0 delta, text_update 1 delta, text_update 2 delta]) =
      3 * Text.len delta := by
  have hthree : appended_text [text_update 0 delta, text_update 1 delta, text_update 2 delta] =
      delta ++ (delta ++ (delta ++ [])) := rfl
  have hnil : Text.len [] = 0 := rfl
  rw [hthree]
  simp only [Text.len_append, hnil]
  omega

/-- Three deltas of as many bytes as a string can have: the count stops at the last number. -/
theorem long_deltas_are_not_kept :
    let updates := [text_update 1 long_piece, text_update 2 long_piece]
    ¬DeltasKept (updates.foldl StreamUpdate.update ((text_update 0 long_piece).start []))
      (appended_text (text_update 0 long_piece :: updates)) := by
  intro updates h
  obtain ⟨-, hlimit, hcount⟩ := h
  rw [len_three_updates, len_long_piece] at hcount
  have hgone := count_le_max (StreamUpdate.update ((text_update 0 long_piece).start [])
    (text_update 1 long_piece)) 2 long_piece
  have hmax : U64_MAX + MAX_ASSISTANT_STREAM_RETAINED_BYTES < 3 * (2 ^ 63 - 1) := by decide
  simp only [updates, List.foldl_cons, List.foldl_nil] at hlimit hcount
  omega

end Ecode.history
