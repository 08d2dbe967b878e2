-- What reaches the receiver of `process_sse` (core/src/client.rs): frames that
-- come again change nothing, and a numbered delta is delivered once.
import Ecode.ResponsesStream

namespace Ecode.client

open json
open chat_completions (StreamEvent)

variable {β D U : Type}

/-! ## Frames that come again -/

namespace SseReader

variable (r : SseReader β D U) (from_str : Text → Option SseEvent)

/-- A frame whose number was reached is passed over. -/
theorem advance_replayed {s : SseState β D U} {next : StreamEvent} {n last : Nat}
    (hnext : number from_str next = some n) (hlast : s.global_last_seq = some last)
    (hle : n ≤ last) : r.advance from_str s next = some s := by
  unfold advance
  split
  · rfl
  · rcases next with data | e | _
    · obtain ⟨event, hevent, hseq⟩ := Option.bind_eq_some_iff.mp hnext
      have hreplayed : s.is_replayed event = true := by
        simp [SseState.is_replayed, hseq, hlast, hle]
      simp only [hevent, frame, hreplayed, if_true]
    · cases hnext
    · cases hnext

theorem run_replayed {s : SseState β D U} {again : List StreamEvent} {last : Nat}
    (hlast : s.global_last_seq = some last)
    (hagain : ∀ next ∈ again, ∃ n, number from_str next = some n ∧ n ≤ last) :
    again.foldlM (r.advance from_str) s = some s := by
  induction again with
  | nil => rfl
  | cons next again ih =>
    obtain ⟨⟨n, hn, hle⟩, hrest⟩ := List.forall_mem_cons.mp hagain
    rw [List.foldlM_cons, r.advance_replayed from_str hn hlast hle]
    exact ih hrest

theorem run_returned {s : SseState β D U} (hs : s.returned = true) (stream : List StreamEvent) :
    stream.foldlM (r.advance from_str) s = some s := by
  induction stream with
  | nil => rfl
  | cons next stream ih =>
    rw [List.foldlM_cons]
    unfold advance
    rw [if_pos hs]
    exact ih

/-- The greatest number of a list of frames is that of one of them. -/
theorem exists_greatest {again : List StreamEvent} {P : Nat → Prop} (hne : again ≠ [])
    (hagain : ∀ next ∈ again, ∃ n, number from_str next = some n ∧ P n) :
    ∃ greatest, P greatest ∧
      ∀ next ∈ again, ∃ n, number from_str next = some n ∧ n ≤ greatest := by
  induction again with
  | nil => exact absurd rfl hne
  | cons next again ih =>
    obtain ⟨⟨n, hn, hPn⟩, hrest⟩ := List.forall_mem_cons.mp hagain
    by_cases hnil : again = []
    · subst hnil
      exact ⟨n, hPn, by simp [hn]⟩
    · obtain ⟨m, hPm, hm⟩ := ih hnil hrest
      rcases le_total n m with hle | hle
      · exact ⟨m, hPm, List.forall_mem_cons.mpr ⟨⟨n, hn, hle⟩, hm⟩⟩
      · refine ⟨n, hPn, List.forall_mem_cons.mpr ⟨⟨n, hn, le_rfl⟩, fun e he => ?_⟩⟩
        obtain ⟨k, hk, hkm⟩ := hm e he
        exact ⟨k, hk, hkm.trans hle⟩

end SseReader

/-- A server that sends frames again, in any order and any number of times, once their numbers were
reached, changes nothing of what the receiver gets. -/
theorem replayed_frames_change_nothing (r : SseReader β D U) (from_str : Text → Option SseEvent)
    (last_sequence takes : Option Nat) (first again rest : List StreamEvent)
    (hagain : ∀ next ∈ again, ∃ n, SseReader.number from_str next = some n ∧
      ∃ earlier ∈ first, ∃ m, SseReader.number from_str earlier = some m ∧ n ≤ m) :
    r.process_sse from_str last_sequence takes (first ++ again ++ rest) =
      r.process_sse from_str last_sequence takes (first ++ rest) := by
  unfold SseReader.process_sse
  congr 1
  rw [List.append_assoc, List.foldlM_append, List.foldlM_append]
  rcases hfirst : first.foldlM (r.advance from_str) (.init last_sequence takes) with _ | s
  · rfl
  · have hsame : again.foldlM (r.advance from_str) s = some s := by
      rcases hs : s.returned with _ | _
      · rcases eq_or_ne again [] with rfl | hne
        · rfl
        · obtain ⟨-, -, hseen, -⟩ := r.run_last from_str hfirst hs
          obtain ⟨n, ⟨earlier, he, m, hm, hnm⟩, hall⟩ :=
            SseReader.exists_greatest from_str hne hagain
          obtain ⟨last, hlast, hle⟩ := hseen earlier he m hm
          refine r.run_replayed from_str hlast fun next hnext => ?_
          obtain ⟨k, hk, hkn⟩ := hall next hnext
          exact ⟨k, hk, hkn.trans (hnm.trans hle)⟩
      · exact r.run_returned from_str hs again
    simp [List.foldlM_append, hsame]

/-- A piece of reasoning as JSON, with its number. -/
def thought_data (n : Char) : Text :=
  ("\x7b\"type\":\"response.reasoning_text.delta\",\"item_id\":\"rs\",\"delta\":\"a\"," ++
    "\"sequence_number\":").toList ++ [n, '\x7d']

def thought (n : Nat) : SseEvent where
  kind := "response.reasoning_text.delta".toList
  response := none
  item := none
  delta := some "a".toList
  item_id := some "rs".toList
  sequence_number := some n
  output_index := none
  content_index := none
  summary_index := none

def read_thoughts (data : Text) : Option SseEvent :=
  if data = thought_data '1' then some (thought 1)
  else if data = thought_data '2' then some (thought 2)
  else none

def thoughts_reader : SseReader Unit Unit Unit where
  read_item _ := .error []
  read_usage _ := none
  try_parse_retry_after _ := none
  request_id := "r".toList

theorem thoughts_replayed :
    thoughts_reader.process_sse read_thoughts none none
        ([.data (thought_data '1'), .data (thought_data '2')] ++ [.data (thought_data '1')] ++
          [.timeout]) =
      thoughts_reader.process_sse read_thoughts none none
        ([.data (thought_data '1'), .data (thought_data '2')] ++ [.timeout]) := by
  apply replayed_frames_change_nothing
  intro next hnext
  obtain rfl := List.mem_singleton.mp hnext
  have hone : SseReader.number read_thoughts (.data (thought_data '1')) = some 1 := by decide
  exact ⟨1, hone, _, List.mem_cons_self, 1, hone, le_rfl⟩

/-! ## Deltas -/

/-- What was seen of reasoning is not above the last number. -/
def SseState.Watched (s : SseState β D U) : Prop :=
  ∀ kind key, (s.reasoning kind).last_seq key ≤ s.global_last_seq.getD 0

namespace SseReader

variable (r : SseReader β D U) (from_str : Text → Option SseEvent)

theorem reasoning_delta_watched {s : SseState β D U} (h : s.Watched) (kind : Reasoning)
    {event : SseEvent} (hlast : ∀ n, event.sequence_number = some n → s.global_last_seq = some n) :
    (s.reasoning_delta kind event).Watched := by
  have hkeeps := (SseState.Keeps.reasoning_delta s kind event).last
  intro kind' key'
  rw [hkeeps]
  unfold SseState.reasoning_delta
  split
  · exact h kind' key'
  · dsimp only
    split
    · rw [SseState.forward_reasoning]
      exact h kind' key'
    · split
      · exact h kind' key'
      · rw [SseState.forward_reasoning]
        dsimp only [SseState.see_item]
        rcases eq_or_ne kind' kind with rfl | hkind
        · rw [Function.update_self]
          unfold ReasoningGuard.note
          split
          · next sn hsn =>
            dsimp only
            rw [hlast sn hsn, Function.update_apply]
            split_ifs
            · exact le_rfl
            · exact (h kind' key').trans (by rw [hlast sn hsn])
          · exact h kind' key'
        · rw [Function.update_of_ne hkind]
          exact h kind' key'

theorem frame_watched {s : SseState β D U} (h : s.Watched) (event : SseEvent) :
    (r.frame event s).Watched := by
  unfold frame
  split
  · exact h
  · next hnew =>
    have hnoted : (s.note_sequence event).Watched := by
      intro kind key
      refine (h kind key).trans ?_
      unfold SseState.is_replayed at hnew
      unfold SseState.note_sequence
      rcases hseq : event.sequence_number with _ | n <;>
        rcases hlast : s.global_last_seq with _ | last
      · exact le_rfl
      · exact le_rfl
      · exact Nat.zero_le n
      · have hlt : ¬n ≤ last := by simpa [hseq, hlast] using hnew
        exact (not_le.mp hlt).le
    obtain ⟨⟨-, hlast, -⟩, hreasoning | ⟨kind, hkind⟩⟩ := r.handle_keeps (s.note_sequence event) event
    · intro kind key
      rw [hreasoning, hlast]
      exact hnoted kind key
    · rw [hkind]
      refine reasoning_delta_watched hnoted kind fun n hn => ?_
      simp [SseState.note_sequence, hn]

theorem advance_watched {s t : SseState β D U} {next : StreamEvent} (h : s.Watched)
    (hstep : r.advance from_str s next = some t) : t.Watched := by
  rcases r.advance_cases from_str hstep with
    ⟨-, rfl⟩ | ⟨-, ⟨e, rfl, -⟩ | ⟨-, -, -, rfl⟩ | ⟨-, event, -, -, rfl⟩⟩
  · exact h
  · intro kind key
    rw [SseState.finish_reasoning, (SseState.Keeps.finish (.refl s) _).last]
    exact h kind key
  · exact h
  · exact r.frame_watched h event

theorem run_watched {t : SseState β D U} {last_sequence takes : Option Nat}
    {stream : List StreamEvent}
    (hrun : stream.foldlM (r.advance from_str) (.init last_sequence takes) = some t) :
    t.Watched :=
  runs.run_invariant (fun _ _ _ hu hstep => r.advance_watched from_str hu hstep)
    (fun _ _ => Nat.zero_le _) hrun

end SseReader

/-- The delta that is sent: of the answer, or of a kind of reasoning. -/
def delta_of : Except (CodexErr D) (ResponseEvent β U) → Option (Option Reasoning × Text)
  | .ok (.OutputTextDelta delta ..) => some (none, delta)
  | .ok (.ReasoningDelta kind delta ..) => some (some kind, delta)
  | _ => none

/-- The delta that a frame holds. -/
def SseEvent.delta_of (event : SseEvent) : Option (Option Reasoning × Text) :=
  match SseKind.of event.kind with
  | .output_text_delta => event.delta.map fun delta => (none, delta)
  | .reasoning_summary_text_delta => event.delta.map fun delta => (some .summary, delta)
  | .reasoning_text_delta => event.delta.map fun delta => (some .content, delta)
  | _ => none

namespace SseState

theorem forward_sent {s : SseState β D U} (hs : s.takes = none) (event : ResponseEvent β U) :
    (s.forward event).tx_event = s.tx_event ++ [.ok event] := by
  unfold forward send
  rw [hs]

theorem output_text_delta_sent {s : SseState β D U} (hs : s.takes = none) {event : SseEvent}
    {delta : Text} (hdelta : event.delta = some delta) :
    ∃ item_id, (s.output_text_delta event).tx_event = s.tx_event ++ [.ok (.OutputTextDelta delta
      item_id event.sequence_number event.output_index)] := by
  refine ⟨event.item_id <|> (s.see_item event.item_id).current_item_id, ?_⟩
  unfold output_text_delta
  rw [hdelta]
  dsimp only
  refine forward_sent ?_ _
  exact hs

/-- A reasoning delta with a number above the last one is no duplicate. -/
theorem reasoning_delta_sent {s : SseState β D U} (hs : s.takes = none) (kind : Reasoning)
    {event : SseEvent} {delta : Text} {n : Nat} (hdelta : event.delta = some delta)
    (hseq : event.sequence_number = some n) (hnew : ∀ key, (s.reasoning kind).last_seq key < n) :
    ∃ item_id, (s.reasoning_delta kind event).tx_event = s.tx_event ++ [.ok (.ReasoningDelta kind
      delta item_id event.sequence_number event.output_index (kind.index event))] := by
  refine ⟨event.item_id <|> (s.see_item event.item_id).current_item_id, ?_⟩
  unfold reasoning_delta
  rw [hdelta]
  dsimp only
  split
  · refine forward_sent ?_ _
    exact hs
  · have hno : ∀ key, (s.reasoning kind).is_duplicate key delta event.sequence_number = false := by
      intro key
      rw [hseq]
      exact decide_eq_false (not_le.mpr (hnew key))
    have hno' : ∀ key, ((s.see_item event.item_id).reasoning kind).is_duplicate key delta
      event.sequence_number = false := hno
    rw [hno', if_neg Bool.false_ne_true]
    refine forward_sent ?_ _
    exact hs

end SseState

theorem SseReader.frame_delta (r : SseReader β D U) {s : SseState β D U} (hs : s.takes = none)
    (hwatched : s.Watched) {event : SseEvent} {n : Nat} (hn : 0 < n)
    (hseq : event.sequence_number = some n) (hnew : ∀ m, s.global_last_seq = some m → m < n)
    {delta : Option Reasoning × Text} (hdelta : event.delta_of = some delta) :
    ∃ e, (r.frame event s).tx_event = s.tx_event ++ [e] ∧ sequence_number e = some n ∧
      delta_of e = some delta := by
  have hfresh : s.is_replayed event = false := by
    unfold SseState.is_replayed
    rcases hlast : s.global_last_seq with _ | last
    · rw [hseq]
    · rw [hseq]
      exact decide_eq_false (not_le.mpr (hnew last hlast))
  have hguard : ∀ kind key, ((s.note_sequence event).reasoning kind).last_seq key < n := by
    intro kind key
    refine (hwatched kind key).trans_lt ?_
    rcases hlast : s.global_last_seq with _ | last
    · exact hn
    · exact hnew last hlast
  have hs' : (s.note_sequence event).takes = none := hs
  unfold SseReader.frame
  rw [hfresh, if_neg Bool.false_ne_true]
  unfold SseReader.handle
  unfold SseEvent.delta_of at hdelta
  split at hdelta
  case h_1 hkind =>
    obtain ⟨text, htext, rfl⟩ := Option.map_eq_some_iff.mp hdelta
    rw [hkind]
    obtain ⟨item_id, hsent⟩ := SseState.output_text_delta_sent hs' htext
    exact ⟨.ok (.OutputTextDelta text item_id event.sequence_number _), hsent, hseq, rfl⟩
  case h_2 hkind =>
    obtain ⟨text, htext, rfl⟩ := Option.map_eq_some_iff.mp hdelta
    rw [hkind]
    obtain ⟨item_id, hsent⟩ := SseState.reasoning_delta_sent hs' .summary htext hseq (hguard _)
    exact ⟨.ok (.ReasoningDelta .summary text item_id event.sequence_number _ _), hsent, hseq, rfl⟩
  case h_3 hkind =>
    obtain ⟨text, htext, rfl⟩ := Option.map_eq_some_iff.mp hdelta
    rw [hkind]
    obtain ⟨item_id, hsent⟩ := SseState.reasoning_delta_sent hs' .content htext hseq (hguard _)
    exact ⟨.ok (.ReasoningDelta .content text item_id event.sequence_number _ _), hsent, hseq, rfl⟩
  case h_4 => exact nomatch hdelta

/-- In a list of ascending numbers the events of one number are one. -/
theorem filter_number {sent : List (Except (CodexErr D) (ResponseEvent β U))}
    (hsent : (sent.filterMap sequence_number).Pairwise (· < ·)) {n : Nat}
    {e : Except (CodexErr D) (ResponseEvent β U)} (he : e ∈ sent) (hn : sequence_number e = some n) :
    sent.filter (fun e => sequence_number e = some n) = [e] := by
  obtain ⟨before, after, rfl⟩ := List.append_of_mem he
  rw [List.filterMap_append, List.filterMap_cons, hn] at hsent
  obtain ⟨-, hafter, hbefore⟩ := List.pairwise_append.mp hsent
  have hnone_before : ∀ a ∈ before, ¬decide (sequence_number a = some n) = true := by
    intro a ha ha'
    have hmem : n ∈ before.filterMap sequence_number :=
      List.mem_filterMap.mpr ⟨a, ha, of_decide_eq_true ha'⟩
    exact lt_irrefl n (hbefore n hmem n List.mem_cons_self)
  have hnone_after : ∀ a ∈ after, ¬decide (sequence_number a = some n) = true := by
    intro a ha ha'
    have hmem : n ∈ after.filterMap sequence_number :=
      List.mem_filterMap.mpr ⟨a, ha, of_decide_eq_true ha'⟩
    exact lt_irrefl n ((List.pairwise_cons.mp hafter).1 n hmem)
  rw [List.filter_append, List.filter_eq_nil_iff.mpr hnone_before, List.filter_cons,
    List.filter_eq_nil_iff.mpr hnone_after]
  simp [hn]

/-- A delta whose number is above all that came before reaches the receiver once, whatever other
deltas of its item came and whatever comes after it. -/
theorem numbered_delta_is_delivered_once (r : SseReader β D U) (from_str : Text → Option SseEvent)
    (last_sequence : Option Nat) (before after : List StreamEvent) (data : Text) (event : SseEvent)
    (n : Nat) (delta : Option Reasoning × Text)
    (sent : List (Except (CodexErr D) (ResponseEvent β U)))
    (hrun : r.process_sse from_str last_sequence none (before ++ .data data :: after) = some sent)
    (hreading : ∀ s, before.foldlM (r.advance from_str) (.init last_sequence none) = some s →
      s.returned = false)
    (hevent : from_str data = some event) (hseq : event.sequence_number = some n) (hn : 0 < n)
    (hdelta : event.delta_of = some delta)
    (hchecked : ∀ m, last_sequence = some m → m < n)
    (hnew : ∀ earlier ∈ before, ∀ m, SseReader.number from_str earlier = some m → m < n) :
    (sent.filter fun e => sequence_number e = some n).map delta_of = [some delta] := by
  obtain ⟨-, hshape⟩ := responses_stream_ends_once r from_str last_sequence none
    (before ++ .data data :: after)
  obtain ⟨-, -, hascending⟩ := hshape sent hrun
  obtain ⟨t, ht, rfl⟩ := Option.map_eq_some_iff.mp hrun
  rw [List.foldlM_append] at ht
  obtain ⟨s, hs, ht⟩ := Option.bind_eq_some_iff.mp ht
  rw [List.foldlM_cons] at ht
  obtain ⟨u, hu, ht⟩ := Option.bind_eq_some_iff.mp ht
  have hgoing := hreading s hs
  obtain ⟨-, -, -, hlast⟩ := r.run_last from_str hs hgoing
  have hbelow : ∀ m, s.global_last_seq = some m → m < n := by
    intro m hm
    rcases hlast with hlast | ⟨earlier, he, hlast⟩
    · exact hchecked m (hlast.symm.trans hm)
    · exact hnew earlier he m (hlast.symm.trans hm)
  have hframe : u = r.frame event s := by
    simpa [SseReader.advance, hgoing, hevent, eq_comm] using hu
  obtain ⟨e, hsent, hnumber, hdelta'⟩ := r.frame_delta ((r.run_keeps from_str hs).2 rfl)
    (r.run_watched from_str hs) hn hseq hbelow hdelta
  have hmem : e ∈ (r.close t).tx_event := by
    have hlater : t.tx_event <+: (r.close t).tx_event := by
      unfold SseReader.close
      split
      · exact List.prefix_rfl
      · exact (SseState.Keeps.finish (.refl t) _).sent
    apply hlater.subset
    apply (r.run_keeps from_str ht).1.subset
    rw [hframe, hsent]
    exact List.mem_append_right _ List.mem_cons_self
  rw [filter_number hascending hmem hnumber, List.map_singleton, hdelta']

/-- The same text comes again under the next number, and is not a duplicate. -/
theorem second_thought_is_delivered :
    ∃ sent, thoughts_reader.process_sse read_thoughts none none
        ([.data (thought_data '1')] ++ .data (thought_data '2') :: [.timeout]) = some sent ∧
      (sent.filter fun e => sequence_number e = some 2).map delta_of =
        [some (some .content, "a".toList)] := by
  refine ⟨_, rfl, ?_⟩
  apply numbered_delta_is_delivered_once thoughts_reader read_thoughts none
    [.data (thought_data '1')] [.timeout] (thought_data '2') (thought 2) 2 (some .content, "a".toList)
    _ rfl
  · intro s hs
    have hgoing : ([.data (thought_data '1')].foldlM (thoughts_reader.advance read_thoughts)
        (.init none none)).map SseState.returned = some false := rfl
    simpa [hs] using hgoing
  · rfl
  · rfl
  · decide
  · decide
  · exact fun m hm => nomatch hm
  · intro earlier he m hm
    obtain rfl := List.mem_singleton.mp he
    have hone : SseReader.number read_thoughts (.data (thought_data '1')) = some 1 := by decide
    rw [hone] at hm
    obtain rfl := Option.some.inj hm
    decide

end Ecode.client
