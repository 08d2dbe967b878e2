-- Whole runs of `process_sse` (core/src/client.rs): how a stream ends, that what
-- is numbered ascends, and that frames that come again change nothing.
import Ecode.ResponsesSse
import Ecode.Runs

namespace Ecode.client

open json
open chat_completions (StreamEvent)

variable {β D U : Type}

/-! ## What was sent -/

/-- After these events a request is over. -/
def is_end : Except (CodexErr D) (ResponseEvent β U) → Bool
  | .error _ => true
  | .ok (.Completed ..) => true
  | .ok _ => false

def sequence_number : Except (CodexErr D) (ResponseEvent β U) → Option Nat
  | .ok (.OutputItemDone _ sequence_number _) => sequence_number
  | .ok (.OutputTextDelta _ _ sequence_number _) => sequence_number
  | .ok (.ReasoningDelta _ _ _ sequence_number _ _) => sequence_number
  | _ => none

theorem sequence_number_is_end {e : Except (CodexErr D) (ResponseEvent β U)}
    (h : is_end e = true) : sequence_number e = none := by
  rcases e with e | e
  · rfl
  · cases e <;> first | rfl | simp [is_end] at h

namespace SseState

def numbers (s : SseState β D U) : List Nat := s.tx_event.filterMap sequence_number

theorem send_eq (s : SseState β D U) (event : Except (CodexErr D) (ResponseEvent β U)) :
    s.send event = (s, false) ∧ s.takes = some 0 ∨
      s.send event =
        ({ s with takes := s.takes.map Nat.pred, tx_event := s.tx_event ++ [event] }, true) ∧
        s.takes ≠ some 0 := by
  unfold send
  split
  · next h => exact .inl ⟨rfl, h⟩
  · next h => exact .inr ⟨rfl, h⟩

/-- What has been sent so far: nothing ends the stream but the last event of a loop that has
returned, and what is numbered ascends to the last number. -/
structure Streamed (s : SseState β D U) : Prop where
  front : ∀ e ∈ s.tx_event.dropLast, is_end e = false
  going : s.returned = false → ∀ e ∈ s.tx_event, is_end e = false
  ended : s.returned = true → s.takes = none → ∃ e, s.tx_event.getLast? = some e ∧ is_end e = true
  ascending : s.numbers.Pairwise (· < ·)
  bounded : ∀ n ∈ s.numbers, ∃ last, s.global_last_seq = some last ∧ n ≤ last

theorem streamed_init (last_sequence takes : Option Nat) :
    (init last_sequence takes : SseState β D U).Streamed where
  front := by simp [init]
  going := by simp [init]
  ended := by simp [init]
  ascending := by simp [init, numbers]
  bounded := by simp [init, numbers]

namespace Streamed

variable {s : SseState β D U}

/-- The loop has returned at an event that ends the stream. -/
theorem finish (h : s.Streamed) (hs : s.returned = false)
    {event : Except (CodexErr D) (ResponseEvent β U)} (hevent : is_end event = true) :
    (s.finish event).Streamed := by
  have hnumber := sequence_number_is_end hevent
  unfold SseState.finish
  rcases s.send_eq event with ⟨hsend, htakes⟩ | ⟨hsend, -⟩ <;> rw [hsend]
  · refine ⟨h.front, (nomatch ·), ?_, h.ascending, h.bounded⟩
    intro _ hnone
    exact absurd (htakes.symm.trans hnone) (Option.some_ne_none 0)
  · have hnumbers : (s.tx_event ++ [event]).filterMap sequence_number = s.numbers := by
      simp [numbers, hnumber]
    refine ⟨?_, (nomatch ·), fun _ _ => ⟨event, by simp, hevent⟩, ?_, ?_⟩
    · rw [List.dropLast_concat]
      exact h.going hs
    · unfold numbers
      dsimp only
      rw [hnumbers]
      exact h.ascending
    · unfold numbers
      dsimp only
      rw [hnumbers]
      exact h.bounded

/-- An event that does not end the stream, and whose number is new. -/
theorem sent (h : s.Streamed) (hs : s.returned = false)
    {event : Except (CodexErr D) (ResponseEvent β U)} (hevent : is_end event = false)
    (hnumber : ∀ n, sequence_number event = some n →
      s.global_last_seq = some n ∧ ∀ m ∈ s.numbers, m < n) :
    (s.send event).1.Streamed := by
  rcases s.send_eq event with ⟨hsend, -⟩ | ⟨hsend, -⟩ <;> rw [hsend]
  · exact h
  · have hall : ∀ e ∈ s.tx_event ++ [event], is_end e = false := by
      intro e he
      rcases List.mem_append.mp he with he | he
      · exact h.going hs e he
      · rw [List.mem_singleton.mp he]
        exact hevent
    have hnumbers : (s.tx_event ++ [event]).filterMap sequence_number =
        s.numbers ++ (sequence_number event).toList := by
      rw [List.filterMap_append]
      rcases hn : sequence_number event <;> simp [hn, numbers]
    refine ⟨fun e he => hall e (List.dropLast_subset _ he), fun _ => hall, ?_, ?_, ?_⟩
    · intro hreturned
      exact absurd (hs.symm.trans hreturned) Bool.false_ne_true
    · unfold numbers
      dsimp only
      rw [hnumbers, List.pairwise_append]
      refine ⟨h.ascending, by cases sequence_number event <;> simp, ?_⟩
      intro m hm n hn
      exact (hnumber n (Option.mem_toList.mp hn)).2 m hm
    · intro m hm
      unfold numbers at hm
      dsimp only at hm
      rw [hnumbers, List.mem_append] at hm
      rcases hm with hm | hm
      · exact h.bounded m hm
      · exact ⟨m, (hnumber m (Option.mem_toList.mp hm)).1, le_rfl⟩

/-- The variables of the loop alone are changed. -/
theorem congr {s' : SseState β D U} (h : s.Streamed) (htx : s'.tx_event = s.tx_event)
    (hreturned : s'.returned = s.returned) (htakes : s'.takes = s.takes)
    (hlast : s'.global_last_seq = s.global_last_seq) : s'.Streamed where
  front := htx ▸ h.front
  going := by rw [htx, hreturned]; exact h.going
  ended := by rw [htx, hreturned, htakes]; exact h.ended
  ascending := by unfold numbers; rw [htx]; exact h.ascending
  bounded := by unfold numbers; rw [htx, hlast]; exact h.bounded

theorem forward (h : s.Streamed) (hs : s.returned = false) {event : ResponseEvent β U}
    (hevent : is_end (.ok event : Except (CodexErr D) _) = false)
    (hnumber : ∀ n, sequence_number (.ok event : Except (CodexErr D) _) = some n →
      s.global_last_seq = some n ∧ ∀ m ∈ s.numbers, m < n) :
    (s.forward event).Streamed := by
  have hsent := h.sent hs hevent hnumber
  unfold SseState.forward
  rcases s.send_eq (.ok event) with ⟨hsend, htakes⟩ | ⟨hsend, -⟩ <;> rw [hsend] at hsent ⊢
  · refine ⟨h.front, (nomatch ·), ?_, h.ascending, h.bounded⟩
    intro _ hnone
    exact absurd (htakes.symm.trans hnone) (Option.some_ne_none 0)
  · exact hsent.congr rfl hs.symm rfl rfl

/-- An event without a number. -/
theorem forward_unnumbered (h : s.Streamed) (hs : s.returned = false) {event : ResponseEvent β U}
    (hevent : is_end (.ok event : Except (CodexErr D) _) = false)
    (hnumber : sequence_number (.ok event : Except (CodexErr D) _) = none) :
    (s.forward event).Streamed :=
  h.forward hs hevent fun n hn => absurd (hnumber.symm.trans hn) (Option.some_ne_none n).symm

end Streamed

theorem forward_numbers (s : SseState β D U) {event : ResponseEvent β U}
    (hnumber : sequence_number (.ok event : Except (CodexErr D) _) = none) :
    (s.forward event).numbers = s.numbers := by
  unfold forward numbers
  rcases s.send_eq (.ok event) with ⟨hsend, -⟩ | ⟨hsend, -⟩ <;> simp [hsend, hnumber]

/-! ## One frame -/

/-- What every change of the loop's variables leaves: what was sent, the last number, and a receiver
that is never dropped. -/
structure Keeps (s s' : SseState β D U) : Prop where
  sent : s.tx_event <+: s'.tx_event
  last : s'.global_last_seq = s.global_last_seq
  takes : s.takes = none → s'.takes = none

namespace Keeps

theorem refl (s : SseState β D U) : s.Keeps s := ⟨List.prefix_rfl, rfl, id⟩

theorem trans {s t u : SseState β D U} (h : s.Keeps t) (h' : t.Keeps u) : s.Keeps u :=
  ⟨h.sent.trans h'.sent, h'.last.trans h.last, fun hs => h'.takes (h.takes hs)⟩

theorem send (s : SseState β D U) (event : Except (CodexErr D) (ResponseEvent β U)) :
    s.Keeps (s.send event).1 := by
  rcases s.send_eq event with ⟨hsend, -⟩ | ⟨hsend, -⟩ <;> rw [hsend]
  · exact .refl s
  · exact ⟨List.prefix_append _ _, rfl, fun hs => congrArg (Option.map Nat.pred) hs⟩

theorem forward {s t : SseState β D U} (h : s.Keeps t) (event : ResponseEvent β U) :
    s.Keeps (t.forward event) := by
  obtain ⟨hsent, hlast, htakes⟩ := h.trans (.send t (.ok event))
  exact ⟨hsent, hlast, htakes⟩

theorem finish {s t : SseState β D U} (h : s.Keeps t)
    (event : Except (CodexErr D) (ResponseEvent β U)) : s.Keeps (t.finish event) := by
  obtain ⟨hsent, hlast, htakes⟩ := h.trans (.send t event)
  exact ⟨hsent, hlast, htakes⟩

theorem see_item {s t : SseState β D U} (h : s.Keeps t) (item_id : Option Text) :
    s.Keeps (t.see_item item_id) := ⟨h.sent, h.last, h.takes⟩

end Keeps

@[simp] theorem send_reasoning (s : SseState β D U)
    (event : Except (CodexErr D) (ResponseEvent β U)) :
    (s.send event).1.reasoning = s.reasoning := by
  rcases s.send_eq event with ⟨hsend, -⟩ | ⟨hsend, -⟩ <;> rw [hsend]

@[simp] theorem forward_reasoning (s : SseState β D U) (event : ResponseEvent β U) :
    (s.forward event).reasoning = s.reasoning := s.send_reasoning _

@[simp] theorem finish_reasoning (s : SseState β D U)
    (event : Except (CodexErr D) (ResponseEvent β U)) :
    (s.finish event).reasoning = s.reasoning := s.send_reasoning _

/-- The number of the frame is the last one, and above those that were sent. -/
def Fresh (s : SseState β D U) (event : SseEvent) : Prop :=
  ∀ n, event.sequence_number = some n → s.global_last_seq = some n ∧ ∀ m ∈ s.numbers, m < n

theorem Streamed.output_text_delta {s : SseState β D U} (h : s.Streamed) (hs : s.returned = false)
    {event : SseEvent} (hfresh : s.Fresh event) : (s.output_text_delta event).Streamed := by
  unfold SseState.output_text_delta
  split
  · exact h
  · refine Streamed.forward ?_ ?_ rfl hfresh
    · exact h.congr rfl rfl rfl rfl
    · exact hs

theorem Streamed.reasoning_delta {s : SseState β D U} (h : s.Streamed) (hs : s.returned = false)
    (kind : Reasoning) {event : SseEvent} (hfresh : s.Fresh event) :
    (s.reasoning_delta kind event).Streamed := by
  unfold SseState.reasoning_delta
  split
  · exact h
  · dsimp only
    split
    · refine Streamed.forward ?_ ?_ rfl hfresh
      · exact h.congr rfl rfl rfl rfl
      · exact hs
    · split
      · exact h.congr rfl rfl rfl rfl
      · refine Streamed.forward ?_ ?_ rfl hfresh
        · exact h.congr rfl rfl rfl rfl
        · exact hs

theorem Keeps.reasoning_delta (s : SseState β D U) (kind : Reasoning) (event : SseEvent) :
    s.Keeps (s.reasoning_delta kind event) := by
  unfold SseState.reasoning_delta
  split
  · exact .refl s
  · dsimp only
    split
    · exact .forward (.see_item (.refl s) _) _
    · split
      · exact .see_item (.refl s) _
      · refine .forward ?_ _
        exact ⟨List.prefix_rfl, rfl, id⟩

theorem Streamed.created {s : SseState β D U} (h : s.Streamed) (hs : s.returned = false)
    (event : SseEvent) : (s.created event).Streamed := by
  unfold SseState.created
  split
  · exact h
  · exact h.sent hs rfl fun n hn => nomatch hn

theorem Streamed.output_item_added {s : SseState β D U} (h : s.Streamed) (hs : s.returned = false)
    (event : SseEvent) : (s.output_item_added event).Streamed := by
  unfold SseState.output_item_added
  split
  · exact h
  · split
    · exact h.forward_unnumbered hs rfl rfl
    · exact h

end SseState

namespace SseReader

open SseState

variable (r : SseReader β D U) {s : SseState β D U} {event : SseEvent}

theorem output_item_done_streamed (h : s.Streamed) (hs : s.returned = false)
    (hfresh : s.Fresh event) : (r.output_item_done event s).Streamed := by
  unfold output_item_done
  split
  · exact h
  · next item_val _ =>
    dsimp only
    generalize ht : (if is_web_search_call item_val then
      s.forward (.WebSearchCallCompleted (call_id item_val) (search_query item_val)) else s) = t
    have hstreamed : t.Streamed := by
      rw [← ht]
      split
      · exact h.forward_unnumbered hs rfl rfl
      · exact h
    have htfresh : t.Fresh event := by
      rw [← ht]
      split
      · intro n hn
        rw [((Keeps.refl s).forward _).last, forward_numbers _ rfl]
        exact hfresh n hn
      · exact hfresh
    split_ifs with hreturned
    · exact hstreamed
    · rw [Bool.not_eq_true] at hreturned
      split
      · exact hstreamed.finish hreturned rfl
      · refine Streamed.forward ?_ ?_ rfl htfresh
        · exact hstreamed.congr rfl rfl rfl rfl
        · exact hreturned

theorem handle_streamed (h : s.Streamed) (hs : s.returned = false) (hfresh : s.Fresh event) :
    (r.handle event s).Streamed := by
  unfold handle
  split
  case h_1 => exact r.output_item_done_streamed h hs hfresh
  case h_2 => exact h.output_text_delta hs hfresh
  case h_3 | h_4 => exact h.reasoning_delta hs _ hfresh
  case h_5 => exact h.created hs event
  case h_6 =>
    unfold failed
    split
    · exact h
    · exact h.finish hs rfl
  case h_7 => exact h.finish hs rfl
  case h_8 =>
    unfold completed
    split
    · exact h
    · split
      · exact h
      · exact h.finish hs rfl
  case h_9 =>
    unfold done
    split
    · exact h.finish hs rfl
    · dsimp only
      split
      · exact h
      · exact h.finish hs rfl
  case h_10 => exact h.output_item_added hs event
  case h_11 => exact h.forward_unnumbered hs rfl rfl
  case h_12 => exact h

/-- A frame that is not a reasoning delta leaves the reasoning that was seen. -/
theorem handle_keeps (s : SseState β D U) (event : SseEvent) :
    s.Keeps (r.handle event s) ∧ ((r.handle event s).reasoning = s.reasoning ∨
      ∃ kind, r.handle event s = s.reasoning_delta kind event) := by
  unfold handle
  split
  case h_1 =>
    unfold output_item_done
    split
    · exact ⟨.refl s, .inl rfl⟩
    · dsimp only
      split_ifs
      · exact ⟨.forward (.refl s) _, .inl (by simp)⟩
      · split
        · exact ⟨.finish (.forward (.refl s) _) _, .inl (by simp)⟩
        · exact ⟨.forward (.see_item (.forward (.refl s) _) _) _, .inl (by simp [see_item])⟩
      · exact ⟨.refl s, .inl rfl⟩
      · split
        · exact ⟨.finish (.refl s) _, .inl (by simp)⟩
        · exact ⟨.forward (.see_item (.refl s) _) _, .inl (by simp [see_item])⟩
  case h_2 =>
    unfold SseState.output_text_delta
    split
    · exact ⟨.refl s, .inl rfl⟩
    · exact ⟨.forward (.see_item (.refl s) _) _, .inl (by simp [see_item])⟩
  case h_3 => exact ⟨.reasoning_delta s _ event, .inr ⟨.summary, rfl⟩⟩
  case h_4 => exact ⟨.reasoning_delta s _ event, .inr ⟨.content, rfl⟩⟩
  case h_5 =>
    unfold SseState.created
    split
    · exact ⟨.refl s, .inl rfl⟩
    · exact ⟨.send s _, .inl (by simp)⟩
  case h_6 =>
    unfold failed
    split
    · exact ⟨.refl s, .inl rfl⟩
    · exact ⟨.finish (.refl s) _, .inl (by simp)⟩
  case h_7 => exact ⟨.finish (.refl s) _, .inl (by simp)⟩
  case h_8 =>
    unfold completed emit_completed_event
    split
    · exact ⟨.refl s, .inl rfl⟩
    · split
      · exact ⟨.refl s, .inl rfl⟩
      · exact ⟨.finish (.refl s) _, .inl (by simp)⟩
  case h_9 =>
    unfold done emit_completed_event
    split
    · exact ⟨.finish (.refl s) _, .inl (by simp)⟩
    · dsimp only
      split
      · exact ⟨.refl s, .inl rfl⟩
      · exact ⟨.finish (.refl s) _, .inl (by simp)⟩
  case h_10 =>
    unfold SseState.output_item_added
    split
    · exact ⟨.refl s, .inl rfl⟩
    · split
      · exact ⟨.forward (.refl s) _, .inl (by simp)⟩
      · exact ⟨.refl s, .inl rfl⟩
  case h_11 => exact ⟨.forward (.refl s) _, .inl (by simp)⟩
  case h_12 => exact ⟨.refl s, .inl rfl⟩

/-! ## The stream -/

/-- A frame that is not replayed is read with its number as the last one. -/
theorem fresh_note_sequence (h : s.Streamed) (hnew : s.is_replayed event = false) :
    (s.note_sequence event).Fresh event ∧ (s.note_sequence event).Streamed := by
  unfold is_replayed at hnew
  unfold note_sequence
  rcases hseq : event.sequence_number with _ | n
  · exact ⟨fun n hn => absurd (hseq.symm.trans hn) (Option.some_ne_none n).symm,
      h.congr rfl rfl rfl rfl⟩
  · have hbelow : ∀ m ∈ s.numbers, m < n := by
      intro m hm
      obtain ⟨last, hlast, hle⟩ := h.bounded m hm
      rw [hseq, hlast] at hnew
      have hlt : ¬n ≤ last := of_decide_eq_false hnew
      omega
    refine ⟨fun m hm => ?_, h.front, h.going, h.ended, h.ascending, ?_⟩
    · obtain rfl : n = m := Option.some.inj (hseq.symm.trans hm)
      exact ⟨rfl, hbelow⟩
    · exact fun m hm => ⟨n, rfl, (hbelow m hm).le⟩

theorem frame_streamed (h : s.Streamed) (hs : s.returned = false) : (r.frame event s).Streamed := by
  unfold frame
  split
  · exact h
  · next hnew =>
    obtain ⟨hfresh, hnoted⟩ := fresh_note_sequence h (Bool.eq_false_iff.mpr hnew)
    exact r.handle_streamed hnoted hs hfresh

variable (from_str : Text → Option SseEvent)

/-- What comes next is a frame, or else data that is skipped or an end. -/
theorem advance_cases {s t : SseState β D U} {next : StreamEvent}
    (h : r.advance from_str s next = some t) :
    s.returned = true ∧ t = s ∨
      s.returned = false ∧
        ((∃ e, t = s.finish (.error e) ∧ ∀ data, next ≠ .data data) ∨
          (∃ data, next = .data data ∧ from_str data = none ∧ t = s) ∨
          ∃ data event, next = .data data ∧ from_str data = some event ∧ t = r.frame event s) := by
  unfold advance at h
  split at h
  · next hs => exact .inl ⟨hs, (Option.some.inj h).symm⟩
  · next hs =>
    refine .inr ⟨Bool.eq_false_iff.mpr hs, ?_⟩
    split at h
    · exact .inl ⟨_, (Option.some.inj h).symm, fun _ => StreamEvent.noConfusion⟩
    · exact .inl ⟨_, (Option.some.inj h).symm, fun _ => StreamEvent.noConfusion⟩
    · next data =>
      split at h
      · next hnone =>
        obtain ⟨-, -, rfl⟩ := Option.map_eq_some_iff.mp h
        exact .inr (.inl ⟨data, rfl, hnone, rfl⟩)
      · next event hevent =>
        exact .inr (.inr ⟨data, event, rfl, hevent, (Option.some.inj h).symm⟩)

theorem advance_streamed {s t : SseState β D U} {next : StreamEvent} (h : s.Streamed)
    (hstep : r.advance from_str s next = some t) : t.Streamed := by
  rcases r.advance_cases from_str hstep with
    ⟨-, rfl⟩ | ⟨hs, ⟨e, rfl, -⟩ | ⟨-, -, -, rfl⟩ | ⟨-, event, -, -, rfl⟩⟩
  · exact h
  · exact h.finish hs rfl
  · exact h
  · exact r.frame_streamed h hs

theorem close_streamed {s : SseState β D U} (h : s.Streamed) :
    (r.close s).Streamed ∧ (r.close s).returned = true := by
  unfold close
  split
  · next hs => exact ⟨h, hs⟩
  · next hs => exact ⟨h.finish (Bool.eq_false_iff.mpr hs) rfl, rfl⟩

theorem advance_keeps {s t : SseState β D U} {next : StreamEvent}
    (hstep : r.advance from_str s next = some t) :
    s.tx_event <+: t.tx_event ∧ (s.takes = none → t.takes = none) := by
  rcases r.advance_cases from_str hstep with
    ⟨-, rfl⟩ | ⟨-, ⟨e, rfl, -⟩ | ⟨-, -, -, rfl⟩ | ⟨-, event, -, -, rfl⟩⟩
  · exact ⟨List.prefix_rfl, id⟩
  · obtain ⟨hsent, -, htakes⟩ := Keeps.finish (.refl s) (.error e)
    exact ⟨hsent, htakes⟩
  · exact ⟨List.prefix_rfl, id⟩
  · unfold frame
    split
    · exact ⟨List.prefix_rfl, id⟩
    · obtain ⟨⟨hsent, -, htakes⟩, -⟩ := r.handle_keeps (s.note_sequence event) event
      exact ⟨hsent, htakes⟩

theorem run_keeps {s t : SseState β D U} {stream : List StreamEvent}
    (hrun : stream.foldlM (r.advance from_str) s = some t) :
    s.tx_event <+: t.tx_event ∧ (s.takes = none → t.takes = none) := by
  refine runs.run_invariant (I := fun t => s.tx_event <+: t.tx_event ∧
    (s.takes = none → t.takes = none)) (fun u next v hu hstep => ?_) ⟨List.prefix_rfl, id⟩ hrun
  obtain ⟨hsent, htakes⟩ := r.advance_keeps from_str hstep
  exact ⟨hu.1.trans hsent, fun h => htakes (hu.2 h)⟩

/-- The number that a frame of the stream has. -/
def number (from_str : Text → Option SseEvent) : StreamEvent → Option Nat
  | .data data => (from_str data).bind SseEvent.sequence_number
  | _ => none

theorem frame_last (s : SseState β D U) (event : SseEvent) :
    (r.frame event s).global_last_seq =
      if s.is_replayed event then s.global_last_seq
      else event.sequence_number <|> s.global_last_seq := by
  unfold frame
  split_ifs
  · rfl
  · exact (r.handle_keeps (s.note_sequence event) event).1.last

/-- The last number is one that was seen, and none that was seen is above it. -/
theorem advance_last {s t : SseState β D U} {next : StreamEvent}
    (hstep : r.advance from_str s next = some t) (ht : t.returned = false) :
    s.returned = false ∧
      (∀ m, s.global_last_seq = some m → ∃ last, t.global_last_seq = some last ∧ m ≤ last) ∧
      (∀ m, number from_str next = some m → ∃ last, t.global_last_seq = some last ∧ m ≤ last) ∧
      (t.global_last_seq = s.global_last_seq ∨ t.global_last_seq = number from_str next) := by
  rcases r.advance_cases from_str hstep with
    ⟨hs, rfl⟩ | ⟨hs, ⟨e, rfl, -⟩ | ⟨data, rfl, hnone, rfl⟩ | ⟨data, event, rfl, hevent, rfl⟩⟩
  · exact absurd (hs.symm.trans ht) Bool.false_ne_true.symm
  · exact nomatch ht
  · refine ⟨hs, fun m hm => ⟨m, hm, le_rfl⟩, fun m hm => ?_, .inl rfl⟩
    simp [number, hnone] at hm
  · have hnumber : number from_str (.data data) = event.sequence_number := by
      simp [number, hevent]
    rw [hnumber, r.frame_last]
    rcases hseq : event.sequence_number with _ | n <;> rcases hlast : s.global_last_seq with _ | last <;>
      simp only [is_replayed, hseq, hlast]
    · simp [hs]
    · simp [hs]
    · simp [hs]
    · by_cases hle : n ≤ last
      · simp [hs, hle]
      · simp [hs, hle]
        omega

theorem run_last {s t : SseState β D U} {stream : List StreamEvent}
    (hrun : stream.foldlM (r.advance from_str) s = some t) (ht : t.returned = false) :
    s.returned = false ∧
      (∀ m, s.global_last_seq = some m → ∃ last, t.global_last_seq = some last ∧ m ≤ last) ∧
      (∀ next ∈ stream, ∀ m, number from_str next = some m →
        ∃ last, t.global_last_seq = some last ∧ m ≤ last) ∧
      (t.global_last_seq = s.global_last_seq ∨
        ∃ next ∈ stream, t.global_last_seq = number from_str next) := by
  induction stream generalizing s with
  | nil =>
    obtain rfl : s = t := by simpa using hrun
    exact ⟨ht, fun m hm => ⟨m, hm, le_rfl⟩, fun _ h => absurd h List.not_mem_nil, .inl rfl⟩
  | cons next stream ih =>
    rw [List.foldlM_cons] at hrun
    obtain ⟨u, hu, hrest⟩ := Option.bind_eq_some_iff.mp hrun
    obtain ⟨hureturned, hulast, hseen, hfrom⟩ := ih hrest
    obtain ⟨hs, hslast, hnext, hstep⟩ := r.advance_last from_str hu hureturned
    refine ⟨hs, fun m hm => ?_, fun e he m hm => ?_, ?_⟩
    · obtain ⟨k, hk, hmk⟩ := hslast m hm
      obtain ⟨last, hlast, hkl⟩ := hulast k hk
      exact ⟨last, hlast, hmk.trans hkl⟩
    · rcases List.mem_cons.mp he with rfl | he
      · obtain ⟨k, hk, hmk⟩ := hnext m hm
        obtain ⟨last, hlast, hkl⟩ := hulast k hk
        exact ⟨last, hlast, hmk.trans hkl⟩
      · exact hseen e he m hm
    · rcases hfrom with hfrom | ⟨e, he, hfrom⟩
      · rcases hstep with hstep | hstep
        · exact .inl (hfrom.trans hstep)
        · exact .inr ⟨next, List.mem_cons_self, hfrom.trans hstep⟩
      · exact .inr ⟨e, List.mem_cons_of_mem next he, hfrom⟩

/-- The loop does not stop in the middle unless data that it cannot read is cut in a character. -/
theorem run_returns {stream : List StreamEvent}
    (hread : ∀ data, .data data ∈ stream → from_str data = none →
      chat_completions.excerpt data ≠ none) (s : SseState β D U) :
    ∃ t, stream.foldlM (r.advance from_str) s = some t := by
  induction stream generalizing s with
  | nil => exact ⟨s, rfl⟩
  | cons next stream ih =>
    have hnext : ∃ u, r.advance from_str s next = some u := by
      unfold advance
      split
      · exact ⟨_, rfl⟩
      · split
        · exact ⟨_, rfl⟩
        · exact ⟨_, rfl⟩
        · next data =>
          split
          · next hnone =>
            obtain ⟨text, htext⟩ :=
              Option.ne_none_iff_exists'.mp (hread data List.mem_cons_self hnone)
            exact ⟨s, by rw [htext, Option.map_some]⟩
          · exact ⟨_, rfl⟩
    obtain ⟨u, hu⟩ := hnext
    obtain ⟨t, ht⟩ := ih (fun data hdata => hread data (List.mem_cons_of_mem next hdata)) u
    exact ⟨t, by rw [List.foldlM_cons, hu]; exact ht⟩

theorem run_streamed {s t : SseState β D U} {stream : List StreamEvent} (h : s.Streamed)
    (hrun : stream.foldlM (r.advance from_str) s = some t) : t.Streamed :=
  runs.run_invariant (fun _ _ _ hu hstep => r.advance_streamed from_str hu hstep) h hrun

end SseReader

/-- Of any stream at all: unless data that is not a frame is cut in a character, `process_sse`
returns. The last event that it sends is the only one that ends a response, and there is one as long
as the receiver is there. What it sends with a number ascends. -/
theorem responses_stream_ends_once (r : SseReader β D U) (from_str : Text → Option SseEvent)
    (last_sequence takes : Option Nat) (stream : List StreamEvent) :
    ((∀ data, .data data ∈ stream → from_str data = none →
      chat_completions.excerpt data ≠ none) →
      r.process_sse from_str last_sequence takes stream ≠ none) ∧
    ∀ sent, r.process_sse from_str last_sequence takes stream = some sent →
      (∀ e ∈ sent.dropLast, is_end e = false) ∧
      (takes = none → ∃ e, sent.getLast? = some e ∧ is_end e = true) ∧
      (sent.filterMap sequence_number).Pairwise (· < ·) := by
  constructor
  · intro hread
    obtain ⟨t, ht⟩ := r.run_returns from_str hread (.init last_sequence takes)
    simp [SseReader.process_sse, ht]
  · intro sent hsent
    obtain ⟨t, ht, rfl⟩ := Option.map_eq_some_iff.mp hsent
    have hstreamed := r.run_streamed from_str (SseState.streamed_init last_sequence takes) ht
    obtain ⟨hclosed, hreturned⟩ := r.close_streamed hstreamed
    refine ⟨hclosed.front, fun htakes => hclosed.ended hreturned ?_, hclosed.ascending⟩
    have hnone : t.takes = none := (r.run_keeps from_str ht).2 htakes
    unfold SseReader.close
    split
    · exact hnone
    · exact (SseState.Keeps.finish (.refl t) _).takes hnone

end Ecode.client
