-- The numbers of the events of a submission (core/src/codex/events.rs) and of its background work
-- (core/src/codex/session.rs): two maps that forget submissions when they grow too large.
import Ecode.HistoryState
import Ecode.Places
import Ecode.Runs

namespace Ecode.sub_id_sequences

open history (saturating_add U64_MAX)
open placing runs

def MAX_EVENT_SEQ_SUB_IDS : Nat := 1024

def MAX_BACKGROUND_SEQ_SUB_IDS : Nat := 1024

/-- `HashMap<String, u64>`. -/
abbrev SequenceMap := AList fun _ : Text => Nat

/-- The loop of `trim_sub_id_sequence_map` and of `stamp_event`. `keys().next()` gives any key of
the map: `keys` are the ones it gives, and none fits when it does not give these. -/
def trim (cap : Nat) : List Text → SequenceMap → Option SequenceMap
  | [], map => if cap < map.entries.length then none else some map
  | key :: keys, map =>
    if cap < map.entries.length ∧ key ∈ map then trim cap keys (map.erase key) else none

/-- `entry(sub_id).or_insert(0)`. -/
def entry (map : SequenceMap) (sub_id : Text) : Nat := (map.lookup sub_id).getD 0

inductive EventMsg where
  | TaskStarted
  | Other
  deriving DecidableEq, Repr

structure Event where
  id : Text
  event_seq : Nat
  msg : EventMsg
  deriving DecidableEq, Repr

structure BackgroundOrder where
  sub_id : Text
  sequence_number : Nat
  deriving DecidableEq, Repr

structure State where
  event_seq_by_sub_id : SequenceMap := ∅
  background_seq_by_sub_id : SequenceMap := ∅

/-- A start of a turn is numbered 0, any other event one more than the one before it. -/
def next_event_seq (map : SequenceMap) (sub_id : Text) : EventMsg → Nat
  | .TaskStarted => 0
  | .Other => saturating_add (entry map sub_id) 1

def stamp_event (state : State) (keys : List Text) (sub_id : Text) (msg : EventMsg) :
    Option (State × Event) :=
  (trim MAX_EVENT_SEQ_SUB_IDS keys state.event_seq_by_sub_id).map fun map =>
    let seq := next_event_seq map sub_id msg
    ({ state with event_seq_by_sub_id := map.insert sub_id seq }, ⟨sub_id, seq, msg⟩)

def next_background_sequence (state : State) (keys : List Text) (sub_id : Text) :
    Option (State × BackgroundOrder) :=
  (trim MAX_BACKGROUND_SEQ_SUB_IDS keys state.background_seq_by_sub_id).map fun map =>
    let current := entry map sub_id
    ({ state with background_seq_by_sub_id := map.insert sub_id (saturating_add current 1) },
      ⟨sub_id, current⟩)

/-! ## Runs of calls -/

/-- The calls, with the keys that a trimming map gives. -/
inductive Call where
  | stamp_event (keys : List Text) (sub_id : Text) (msg : EventMsg)
  | next_background_sequence (keys : List Text) (sub_id : Text)

/-- The state of the session, and all that it has stamped and handed out. -/
structure World where
  state : State := {}
  events : List Event := []
  orders : List BackgroundOrder := []

def World.step (w : World) : Call → Option World
  | .stamp_event keys sub_id msg =>
    (stamp_event w.state keys sub_id msg).map fun (state, event) =>
      { w with state, events := w.events ++ [event] }
  | .next_background_sequence keys sub_id =>
    (next_background_sequence w.state keys sub_id).map fun (state, order) =>
      { w with state, orders := w.orders ++ [order] }

def run (calls : List Call) : Option World := calls.foldlM World.step {}

def World.events_of (w : World) (sub_id : Text) : List Event := w.events.filter (·.id = sub_id)

def World.orders_of (w : World) (sub_id : Text) : List BackgroundOrder :=
  w.orders.filter (·.sub_id = sub_id)

/-- The numbers of a submission's events increase from one `TaskStarted` to the next, and those of
its background work over the whole run. -/
structure NumbersIncrease (w : World) : Prop where
  events : ∀ sub_id, IncreasesBetween (fun e => e.msg = .TaskStarted) Event.event_seq
    (w.events_of sub_id)
  orders : ∀ sub_id, IncreasesBetween (fun _ => false) BackgroundOrder.sequence_number
    (w.orders_of sub_id)

/-- A call for a submission that has had a number since its last `TaskStarted`, or any number of
background work, finds it in the map once the map is trimmed. -/
def Remembered (w : World) : Call → Prop
  | .stamp_event _ _ .TaskStarted => True
  | .stamp_event keys sub_id .Other =>
    (∃ last, (w.events_of sub_id).getLast? = some last ∧ last.msg ≠ .TaskStarted) →
      sub_id ∈ w.state.event_seq_by_sub_id ∧ sub_id ∉ keys
  | .next_background_sequence keys sub_id =>
    w.orders_of sub_id ≠ [] → sub_id ∈ w.state.background_seq_by_sub_id ∧ sub_id ∉ keys

/-! ## Trimmed maps -/

theorem lookup_trim {cap : Nat} {keys : List Text} {map map' : SequenceMap}
    (h : trim cap keys map = some map') (sub_id : Text) :
    map'.lookup sub_id = if sub_id ∈ keys then none else map.lookup sub_id := by
  induction keys generalizing map with
  | nil =>
    rw [trim] at h
    split at h
    · cases h
    · obtain rfl := Option.some.inj h
      simp
  | cons key keys ih =>
    rw [trim] at h
    split at h
    · rw [ih h]
      by_cases hkeys : sub_id ∈ keys
      · simp [hkeys]
      · by_cases hkey : sub_id = key
        · subst hkey
          simp
        · rw [if_neg hkeys, if_neg (by simp [hkey, hkeys]), AList.lookup_erase_ne hkey]
    · cases h

/-- What a trimmed map still counts for a submission, it counted before. -/
theorem lookup_of_trim {cap : Nat} {keys : List Text} {map map' : SequenceMap}
    (h : trim cap keys map = some map') {sub_id : Text} {v : Nat}
    (hv : map'.lookup sub_id = some v) : map.lookup sub_id = some v ∧ sub_id ∉ keys := by
  rw [lookup_trim h] at hv
  split at hv
  · cases hv
  · next hkeys => exact ⟨hv, hkeys⟩

theorem found_of_entry {cap : Nat} {keys : List Text} {map map' : SequenceMap}
    (h : trim cap keys map = some map') {sub_id : Text} (hentry : entry map' sub_id ≠ 0) :
    sub_id ∈ map ∧ sub_id ∉ keys := by
  unfold entry at hentry
  rcases hv : map'.lookup sub_id with _ | v
  · rw [hv] at hentry
    exact absurd rfl hentry
  · obtain ⟨hmap, hkeys⟩ := lookup_of_trim h hv
    refine ⟨AList.lookup_isSome.mp ?_, hkeys⟩
    rw [hmap]
    rfl

theorem entry_of_found {cap : Nat} {keys : List Text} {map map' : SequenceMap}
    (h : trim cap keys map = some map') {sub_id : Text} (hmap : sub_id ∈ map)
    (hkeys : sub_id ∉ keys) : map.lookup sub_id = some (entry map' sub_id) := by
  obtain ⟨v, hv⟩ := Option.isSome_iff_exists.mp (AList.lookup_isSome.mpr hmap)
  rw [entry, lookup_trim h, if_neg hkeys, hv]
  rfl

/-! ## What one call does -/

theorem step_stamp_event {w t : World} {keys : List Text} {sub_id : Text} {msg : EventMsg}
    (h : w.step (.stamp_event keys sub_id msg) = some t) :
    ∃ map, trim MAX_EVENT_SEQ_SUB_IDS keys w.state.event_seq_by_sub_id = some map ∧
      t = { w with
        state := { w.state with
          event_seq_by_sub_id := map.insert sub_id (next_event_seq map sub_id msg) }
        events := w.events ++ [⟨sub_id, next_event_seq map sub_id msg, msg⟩] } := by
  obtain ⟨⟨state, event⟩, hstamp, rfl⟩ := Option.map_eq_some_iff.mp h
  obtain ⟨map, hmap, heq⟩ := Option.map_eq_some_iff.mp hstamp
  obtain ⟨rfl, rfl⟩ := Prod.mk.inj heq
  exact ⟨map, hmap, rfl⟩

theorem step_next_background_sequence {w t : World} {keys : List Text} {sub_id : Text}
    (h : w.step (.next_background_sequence keys sub_id) = some t) :
    ∃ map, trim MAX_BACKGROUND_SEQ_SUB_IDS keys w.state.background_seq_by_sub_id = some map ∧
      t = { w with
        state := { w.state with
          background_seq_by_sub_id := map.insert sub_id (saturating_add (entry map sub_id) 1) }
        orders := w.orders ++ [⟨sub_id, entry map sub_id⟩] } := by
  obtain ⟨⟨state, order⟩, hnext, rfl⟩ := Option.map_eq_some_iff.mp h
  obtain ⟨map, hmap, heq⟩ := Option.map_eq_some_iff.mp hnext
  obtain ⟨rfl, rfl⟩ := Prod.mk.inj heq
  exact ⟨map, hmap, rfl⟩

/-- The maps follow what was stamped and handed out, and none of their counts is full within the
next `n` calls. -/
structure Follows (n : Nat) (w : World) : Prop where
  short : n ≤ U64_MAX
  event_last : ∀ sub_id v, w.state.event_seq_by_sub_id.lookup sub_id = some v →
    v + n ≤ U64_MAX ∧ ∃ last, (w.events_of sub_id).getLast? = some last ∧ last.event_seq = v
  starts : ∀ e ∈ w.events, e.event_seq = 0 ↔ e.msg = .TaskStarted
  order_last : ∀ sub_id v, w.state.background_seq_by_sub_id.lookup sub_id = some v →
    v + n ≤ U64_MAX ∧
      ∃ last, (w.orders_of sub_id).getLast? = some last ∧ last.sequence_number + 1 = v

theorem Follows.start {n : Nat} (h : n ≤ U64_MAX) : Follows n {} := by
  refine ⟨h, ?_, ?_, ?_⟩
  · intro sub_id v hv
    cases (AList.lookup_empty sub_id).symm.trans hv
  · intro e he
    cases he
  · intro sub_id v hv
    cases (AList.lookup_empty sub_id).symm.trans hv

/-- The count of a submission in a trimmed map is not full. -/
theorem entry_le_of_lookup {cap n : Nat} {keys : List Text} {map map' : SequenceMap}
    (htrim : trim cap keys map = some map') (hshort : n ≤ U64_MAX)
    (hbound : ∀ sub_id v, map.lookup sub_id = some v → v + n ≤ U64_MAX) (sub_id : Text) :
    entry map' sub_id + n ≤ U64_MAX := by
  unfold entry
  rcases hv : map'.lookup sub_id with _ | v
  · simpa using hshort
  · exact hbound sub_id v (lookup_of_trim htrim hv).1

theorem saturating_add_one {v n : Nat} (h : v + (n + 1) ≤ U64_MAX) :
    saturating_add v 1 = v + 1 :=
  Nat.min_eq_left (by omega)

theorem Follows.entry_event {n : Nat} {w : World} (h : Follows (n + 1) w) {keys : List Text}
    {map : SequenceMap}
    (htrim : trim MAX_EVENT_SEQ_SUB_IDS keys w.state.event_seq_by_sub_id = some map)
    (sub_id : Text) : entry map sub_id + (n + 1) ≤ U64_MAX :=
  entry_le_of_lookup htrim h.short (fun s v hv => (h.event_last s v hv).1) sub_id

theorem Follows.entry_order {n : Nat} {w : World} (h : Follows (n + 1) w) {keys : List Text}
    {map : SequenceMap}
    (htrim : trim MAX_BACKGROUND_SEQ_SUB_IDS keys w.state.background_seq_by_sub_id = some map)
    (sub_id : Text) : entry map sub_id + (n + 1) ≤ U64_MAX :=
  entry_le_of_lookup htrim h.short (fun s v hv => (h.order_last s v hv).1) sub_id

theorem events_of_concat_self (w : World) (state : State) (e : Event) :
    World.events_of { w with state, events := w.events ++ [e] } e.id = w.events_of e.id ++ [e] := by
  simp [World.events_of]

theorem events_of_concat_other (w : World) (state : State) {e : Event} {sub_id : Text}
    (h : sub_id ≠ e.id) :
    World.events_of { w with state, events := w.events ++ [e] } sub_id = w.events_of sub_id := by
  simp [World.events_of, h.symm]

theorem orders_of_concat_self (w : World) (state : State) (o : BackgroundOrder) :
    World.orders_of { w with state, orders := w.orders ++ [o] } o.sub_id =
      w.orders_of o.sub_id ++ [o] := by
  simp [World.orders_of]

theorem orders_of_concat_other (w : World) (state : State) {o : BackgroundOrder} {sub_id : Text}
    (h : sub_id ≠ o.sub_id) :
    World.orders_of { w with state, orders := w.orders ++ [o] } sub_id = w.orders_of sub_id := by
  simp [World.orders_of, h.symm]

theorem Follows.step {n : Nat} {w t : World} {call : Call} (h : Follows (n + 1) w)
    (hstep : w.step call = some t) : Follows n t := by
  have hshort := h.short
  cases call with
  | stamp_event keys sub_id msg =>
    obtain ⟨map, htrim, rfl⟩ := step_stamp_event hstep
    have hentry := h.entry_event htrim sub_id
    refine ⟨by omega, ?_, ?_, ?_⟩
    · intro s v hv
      by_cases hs : s = sub_id
      · subst hs
        obtain rfl := Option.some.inj ((AList.lookup_insert map).symm.trans hv)
        refine ⟨?_, _, (congrArg List.getLast? (events_of_concat_self w _ _)).trans
          List.getLast?_concat, rfl⟩
        cases msg with
        | TaskStarted => simp only [next_event_seq]; omega
        | Other => rw [next_event_seq, saturating_add_one hentry]; omega
      · rw [AList.lookup_insert_ne hs] at hv
        obtain ⟨hle, hlast⟩ := h.event_last s v (lookup_of_trim htrim hv).1
        refine ⟨by omega, ?_⟩
        rw [events_of_concat_other w _ hs]
        exact hlast
    · intro e he
      rcases List.mem_append.mp he with he | he
      · exact h.starts e he
      · obtain rfl := List.mem_singleton.mp he
        cases msg with
        | TaskStarted => exact iff_of_true rfl rfl
        | Other =>
          refine iff_of_false ?_ EventMsg.noConfusion
          simp only [next_event_seq, saturating_add_one hentry]
          omega
    · intro s v hv
      obtain ⟨hle, hlast⟩ := h.order_last s v hv
      exact ⟨by omega, hlast⟩
  | next_background_sequence keys sub_id =>
    obtain ⟨map, htrim, rfl⟩ := step_next_background_sequence hstep
    have hentry := h.entry_order htrim sub_id
    refine ⟨by omega, ?_, h.starts, ?_⟩
    · intro s v hv
      obtain ⟨hle, hlast⟩ := h.event_last s v hv
      exact ⟨by omega, hlast⟩
    · intro s v hv
      by_cases hs : s = sub_id
      · subst hs
        obtain rfl := Option.some.inj ((AList.lookup_insert map).symm.trans hv)
        rw [saturating_add_one hentry]
        refine ⟨by omega, _, (congrArg List.getLast? (orders_of_concat_self w _ _)).trans
          List.getLast?_concat, rfl⟩
      · rw [AList.lookup_insert_ne hs] at hv
        obtain ⟨hle, hlast⟩ := h.order_last s v (lookup_of_trim htrim hv).1
        refine ⟨by omega, ?_⟩
        rw [orders_of_concat_other w _ hs]
        exact hlast

/-! ## When the numbers increase -/

theorem numbersIncrease_event (w : World) (state : State) (e : Event) :
    NumbersIncrease { w with state, events := w.events ++ [e] } ↔ NumbersIncrease w ∧
      ∀ last, (w.events_of e.id).getLast? = some last → decide (e.msg = .TaskStarted) = false →
        last.event_seq < e.event_seq := by
  constructor
  · rintro ⟨hevents, horders⟩
    have hown := hevents e.id
    rw [events_of_concat_self, increasesBetween_concat] at hown
    refine ⟨⟨fun sub_id => ?_, horders⟩, hown.2⟩
    by_cases hid : sub_id = e.id
    · rw [hid]
      exact hown.1
    · have hother := hevents sub_id
      rwa [events_of_concat_other w state hid] at hother
  · rintro ⟨⟨hevents, horders⟩, hlast⟩
    refine ⟨fun sub_id => ?_, horders⟩
    by_cases hid : sub_id = e.id
    · rw [hid, events_of_concat_self, increasesBetween_concat]
      exact ⟨hevents e.id, hlast⟩
    · rw [events_of_concat_other w state hid]
      exact hevents sub_id

theorem numbersIncrease_order (w : World) (state : State) (o : BackgroundOrder) :
    NumbersIncrease { w with state, orders := w.orders ++ [o] } ↔ NumbersIncrease w ∧
      ∀ last, (w.orders_of o.sub_id).getLast? = some last →
        last.sequence_number < o.sequence_number := by
  constructor
  · rintro ⟨hevents, horders⟩
    have hown := horders o.sub_id
    rw [orders_of_concat_self, increasesBetween_concat] at hown
    refine ⟨⟨hevents, fun sub_id => ?_⟩, fun last hlast => hown.2 last hlast rfl⟩
    by_cases hid : sub_id = o.sub_id
    · rw [hid]
      exact hown.1
    · have hother := horders sub_id
      rwa [orders_of_concat_other w state hid] at hother
  · rintro ⟨⟨hevents, horders⟩, hlast⟩
    refine ⟨hevents, fun sub_id => ?_⟩
    by_cases hid : sub_id = o.sub_id
    · rw [hid, orders_of_concat_self, increasesBetween_concat]
      exact ⟨horders o.sub_id, fun last h _ => hlast last h⟩
    · rw [orders_of_concat_other w state hid]
      exact horders sub_id

/-- A number is larger than the last one exactly when the submission is found in the map. -/
theorem Follows.increases_iff {n : Nat} {w t : World} {call : Call} (h : Follows (n + 1) w)
    (hstep : w.step call = some t) : NumbersIncrease t ↔ NumbersIncrease w ∧ Remembered w call := by
  cases call with
  | stamp_event keys sub_id msg =>
    obtain ⟨map, htrim, rfl⟩ := step_stamp_event hstep
    rw [numbersIncrease_event]
    refine and_congr_right fun _ => ?_
    cases msg with
    | TaskStarted => exact iff_of_true (fun _ _ hmsg => absurd hmsg (by simp)) trivial
    | Other =>
      have hseq : next_event_seq map sub_id .Other = entry map sub_id + 1 :=
        saturating_add_one (h.entry_event htrim sub_id)
      have hmsg : decide (EventMsg.Other = .TaskStarted) = false := rfl
      simp only [hseq, hmsg, forall_const, Remembered]
      constructor
      · rintro hlarger ⟨last, hlast, hother⟩
        apply found_of_entry htrim
        -- The last event was numbered 1 or more, and the new one is numbered higher.
        have hlt := hlarger last hlast
        have hstarts := h.starts last (List.mem_filter.mp (List.mem_of_getLast? hlast)).1
        have hne := mt hstarts.mp hother
        omega
      · intro hfound last hlast
        by_cases hstarted : last.msg = .TaskStarted
        · have hzero := (h.starts last (List.mem_filter.mp (List.mem_of_getLast? hlast)).1).mpr
            hstarted
          omega
        · obtain ⟨hmap, hkeys⟩ := hfound ⟨last, hlast, hstarted⟩
          obtain ⟨-, last', hlast', hv⟩ := h.event_last _ _ (entry_of_found htrim hmap hkeys)
          obtain rfl := Option.some.inj (hlast.symm.trans hlast')
          omega
  | next_background_sequence keys sub_id =>
    obtain ⟨map, htrim, rfl⟩ := step_next_background_sequence hstep
    rw [numbersIncrease_order]
    refine and_congr_right fun _ => ?_
    simp only [Remembered]
    constructor
    · intro hlarger hsome
      apply found_of_entry htrim
      have hlt := hlarger _ (List.getLast?_eq_some_getLast hsome)
      omega
    · intro hfound last hlast
      have hsome : w.orders_of sub_id ≠ [] := by
        intro hnil
        rw [hnil] at hlast
        cases hlast
      obtain ⟨hmap, hkeys⟩ := hfound hsome
      obtain ⟨-, last', hlast', hv⟩ := h.order_last _ _ (entry_of_found htrim hmap hkeys)
      obtain rfl := Option.some.inj (hlast.symm.trans hlast')
      omega

theorem NumbersIncrease.start : NumbersIncrease {} := by
  refine ⟨?_, ?_⟩
  · intro sub_id i j x y _ hi
    cases hi
  · intro sub_id i j x y _ hi
    cases hi

/-- In a run shorter than 2^64 calls the numbers increase exactly when every call for a submission
that has had a number finds it in the map. -/
theorem numbers_increase_iff_remembered (calls : List Call) (w : World)
    (hshort : calls.length < 2 ^ 64) (hrun : run calls = some w) :
    NumbersIncrease w ↔ Guarded World.step Remembered {} calls := by
  have hstart : Follows calls.length {} := Follows.start (Nat.le_pred_of_lt hshort)
  have hiff := guarded_iff_countdown (G := Remembered) (I := Follows) (P := NumbersIncrease)
    (fun _ _ _ _ h hstep => h.step hstep) (fun _ _ _ _ h hstep => h.increases_iff hstep) hstart hrun
  rw [hiff]
  exact and_iff_right NumbersIncrease.start

theorem two_events_increase :
    NumbersIncrease ⟨⟨AList.insert ['a'] 2 ∅, ∅⟩, [⟨['a'], 1, .Other⟩, ⟨['a'], 2, .Other⟩], []⟩ ↔
      Guarded World.step Remembered {} [.stamp_event [] ['a'] .Other, .stamp_event [] ['a'] .Other] :=
  numbers_increase_iff_remembered [.stamp_event [] ['a'] .Other, .stamp_event [] ['a'] .Other] _
    (by decide) rfl

/-! ## A submission that is forgotten -/

/-- Submissions that differ in the length of their id. -/
def sub (i : Nat) : Text := List.replicate i 'a'

theorem sub_inj {i j : Nat} : sub i = sub j ↔ i = j := by
  constructor
  · intro h
    simpa [sub] using congrArg List.length h
  · rintro rfl
    rfl

/-- One event for each of `n` submissions. -/
def one_each (n : Nat) : List Call :=
  (List.range n).map fun i => .stamp_event [] (sub i) .Other

/-- A submission that is not in the map is numbered from 1 on. -/
theorem step_unknown {w : World} {keys : List Text} {map : SequenceMap} {sub_id : Text}
    (htrim : trim MAX_EVENT_SEQ_SUB_IDS keys w.state.event_seq_by_sub_id = some map)
    (hnew : sub_id ∉ map) :
    ∃ t, w.step (.stamp_event keys sub_id .Other) = some t ∧
      t.state.event_seq_by_sub_id = map.insert sub_id 1 ∧
      t.events = w.events ++ [⟨sub_id, 1, .Other⟩] := by
  have hseq : next_event_seq map sub_id .Other = 1 := by
    rw [next_event_seq, entry, AList.lookup_eq_none.mpr hnew]
    rfl
  rw [World.step, stamp_event, htrim, Option.map_some, Option.map_some, hseq]
  exact ⟨_, rfl, rfl, rfl⟩

theorem run_one_each {n : Nat} (hn : n ≤ MAX_EVENT_SEQ_SUB_IDS + 1) :
    ∃ w, run (one_each n) = some w ∧ w.state.event_seq_by_sub_id.entries.length = n ∧
      (∀ i, sub i ∈ w.state.event_seq_by_sub_id ↔ i < n) ∧
      w.events = (List.range n).map fun i => ⟨sub i, 1, .Other⟩ := by
  induction n with
  | zero => exact ⟨{}, rfl, rfl, fun i => by simp, rfl⟩
  | succ n ih =>
    obtain ⟨w, hrun, hlength, hkeys, hevents⟩ := ih (Nat.le_of_succ_le hn)
    have hnew : sub n ∉ w.state.event_seq_by_sub_id := fun h => Nat.lt_irrefl n ((hkeys n).mp h)
    have htrim : trim MAX_EVENT_SEQ_SUB_IDS [] w.state.event_seq_by_sub_id =
        some w.state.event_seq_by_sub_id := if_neg (by omega)
    obtain ⟨t, hstep, hmap, hstamped⟩ := step_unknown htrim hnew
    refine ⟨t, ?_, ?_, ?_, ?_⟩
    · unfold run at hrun ⊢
      rw [one_each, List.range_succ, List.map_append, List.foldlM_append, ← one_each, hrun]
      simpa using hstep
    · rw [hmap, AList.entries_insert_of_notMem hnew, List.length_cons, hlength]
    · intro i
      rw [hmap, AList.mem_insert, hkeys, sub_inj]
      omega
    · rw [List.range_succ, List.map_append, ← hevents]
      exact hstamped

theorem length_erase {map : SequenceMap} {key : Text} (h : key ∈ map) :
    (map.erase key).entries.length = map.entries.length - 1 := by
  obtain ⟨v, before, later, -, hentries, herased⟩ := List.exists_of_kerase h
  change (List.kerase key map.entries).length = _
  rw [herased, hentries, List.length_append, List.length_append, List.length_cons]
  rfl

/-- The map forgets the first of 1025 submissions, and numbers its second event 1 again. -/
theorem forgotten_submission_starts_over :
    ∃ w, run (one_each 1025 ++ [.stamp_event [sub 0] (sub 0) .Other]) = some w ∧
      ¬NumbersIncrease w := by
  obtain ⟨w, hrun, hlength, hkeys, hevents⟩ := run_one_each (Nat.le_refl 1025)
  have hfirst : sub 0 ∈ w.state.event_seq_by_sub_id := (hkeys 0).mpr (by decide)
  have htrim : trim MAX_EVENT_SEQ_SUB_IDS [sub 0] w.state.event_seq_by_sub_id =
      some (w.state.event_seq_by_sub_id.erase (sub 0)) := by
    have herased : (w.state.event_seq_by_sub_id.erase (sub 0)).entries.length = 1024 := by
      rw [length_erase hfirst, hlength]
    rw [trim, if_pos ⟨by rw [hlength]; decide, hfirst⟩, trim, herased]
    rfl
  obtain ⟨t, hstep, -, hstamped⟩ := step_unknown htrim fun h => (AList.mem_erase.mp h).1 rfl
  refine ⟨t, ?_, ?_⟩
  · unfold run at hrun ⊢
    rw [List.foldlM_append, hrun]
    simpa using hstep
  · intro h
    have hown := h.events (sub 0)
    have hconcat : t.events_of (sub 0) = w.events_of (sub 0) ++ [⟨sub 0, 1, .Other⟩] := by
      simp [World.events_of, hstamped]
    rw [hconcat, increasesBetween_concat] at hown
    have hmem : (⟨sub 0, 1, .Other⟩ : Event) ∈ w.events_of (sub 0) := by
      apply List.mem_filter.mpr
      rw [hevents]
      exact ⟨List.mem_map.mpr ⟨0, List.mem_range.mpr (by decide), rfl⟩, decide_eq_true rfl⟩
    have hlast := List.getLast?_eq_some_getLast (List.ne_nil_of_mem hmem)
    -- Every event so far is numbered 1, the last one of the submission too.
    have hone : ((w.events_of (sub 0)).getLast (List.ne_nil_of_mem hmem)).event_seq = 1 := by
      have hin := (List.mem_filter.mp (List.getLast_mem (List.ne_nil_of_mem hmem))).1
      rw [hevents] at hin
      obtain ⟨i, -, heq⟩ := List.mem_map.mp hin
      exact (congrArg Event.event_seq heq).symm
    have hlt := hown.2 _ hlast rfl
    rw [hone] at hlt
    exact Nat.lt_irrefl 1 hlt

end Ecode.sub_id_sequences
