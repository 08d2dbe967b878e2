-- A compaction with all of its attempts: what the streams report reaches the live history while
-- they run, and the summary and the snippets are read from it (core/src/codex/compact.rs).
import Ecode.Resume

namespace Ecode.attempts

open compact resume

variable {β : Type}

/-! ## The attempts -/

/-- What the model answers to one prompt: items, then the completion or an error. -/
structure Response (β : Type) where
  items : List (ResponseItem β)
  error : Option CodexErr

/-- The loop of both compactions on the live session: why it stops, none while it waits for the
next answer. -/
def attempt_loop (prepare : List (ResponseItem β) → List (ResponseItem β)) (max_retries : Nat) :
    List (Response β) → RetryState β → Session β → Option Stopped × Session β
  | [], _, session => (none, session)
  | response :: responses, s, session =>
    let turn_input := prepare s.turn_input
    let session := session.drain_to_completed response.items
    match response.error with
    | none => (some .Completed, session)
    | some e =>
      match on_error max_retries { s with turn_input } e with
      | .inl s => attempt_loop prepare max_retries responses s session
      | .inr stopped => (some stopped, session)

/-- What a completed compaction reads from the live history and builds from it. -/
structure Compaction (β : Type) where
  history_snapshot : List (ResponseItem β)
  summary_text : Text
  snippets : List CompactionSnippet
  new_history : List (ResponseItem β)

def Compaction.of (tc : TurnContext) (env : List EnvironmentItem)
    (history_snapshot : List (ResponseItem β)) : Option (Compaction β) := do
  let summary_text := (get_last_assistant_message_from_turn history_snapshot).getD []
  let snippets ← collect_compaction_snippets history_snapshot
  let new_history := build_compacted_history (build_initial_context tc env) snippets summary_text
  some { history_snapshot, summary_text, snippets, new_history }

inductive Ended (β : Type) where
  | Compacted (compaction : Compaction β)
  | Emergency (emergency_history : List (ResponseItem β))
  | Aborted (error : CodexErr)

/-- What follows on the loop, where `record` is how the new history is taken over. There is no end
while the loop waits, and none after a panic of a cut. -/
def conclude (to_string : CodexErr → Text) (tc : TurnContext) (sub_id : Text)
    (env : List EnvironmentItem) (record : List (ResponseItem β) → List (ResponseItem β)) :
    Option Stopped × Session β → Option (Ended β × Session β)
  | (none, _) => none
  | (some .Completed, s) => do
    let c ← Compaction.of tc env s.history
    some (.Compacted c, (s.replace_history (record c.new_history)).persist_compacted sub_id
      c.summary_text (Session.display_message c.summary_text))
  | (some .Interrupted, s) => some (.Aborted .Interrupted, s)
  | (some (.Emergency reason), s) =>
    some (.Emergency (build_emergency_compacted_history (build_initial_context tc env)
      (Session.emergency_message reason)),
      s.apply_emergency_compaction_fallback tc sub_id reason env)
  | (some (.Failed e), s) =>
    some (.Aborted e, s.persist_rollout_items [.Event sub_id (.Error (to_string e))])

section

variable (to_json : List β → Text) (to_string : CodexErr → Text) (tc : TurnContext) (sub_id : Text)
  (env : List EnvironmentItem) (max_retries : Nat) (turn_input : List (ResponseItem β))
  (responses : List (Response β)) (session : Session β)

def perform_compaction : Option (Ended β × Session β) := do
  let turn_input ← sanitize_items_for_compact to_json turn_input
  conclude to_string tc sub_id env id
    (attempt_loop prune_orphan_tool_outputs max_retries responses (.start turn_input) session)

def run_compact_task_inner_inline : Option (Ended β × Session β) := do
  let turn_input ← sanitize_items_for_compact to_json turn_input
  conclude to_string tc sub_id env (List.filter is_api_message)
    (attempt_loop id max_retries responses (.start turn_input) session)

/-- The list that `run_compact_task_inner_inline` returns. -/
def Ended.returned : Ended β → List (ResponseItem β)
  | .Compacted c => c.new_history
  | .Emergency emergency_history => emergency_history
  | .Aborted _ => []

/-- The answers that `perform_compaction` waits for: one for each prompt. -/
def performed : List (Response β) :=
  responses.take (perform_compaction_prompts to_json max_retries turn_input
    (responses.map Response.error)).length

/-- The same of `run_compact_task_inner_inline`. -/
def performed_inline : List (Response β) :=
  responses.take (run_compact_task_inner_inline_prompts to_json max_retries turn_input
    (responses.map Response.error)).length

end

/-! ## Where the snippets come from -/

/-- The snippet that an item makes. -/
def quote (item : ResponseItem β) : Option CompactionSnippet :=
  (snippet_text item).bind fun (role, text) =>
    (truncate_for_compact text COMPACT_TEXT_CONTENT_MAX_BYTES).bind fun truncated =>
      if Text.trim truncated = [] then none else some ⟨role, truncated⟩

/-- The snippets that the items make, each with the place of its item from `start` on. -/
def placed (start : Nat) (items : List (ResponseItem β)) : List (CompactionSnippet × Nat) :=
  (items.zipIdx start).filterMap fun (item, place) => (quote item).map (·, place)

/-- The snippets of a history with their places: they are the newest ones. -/
def quoted (history : List (ResponseItem β)) (snippets : List CompactionSnippet) :
    List (CompactionSnippet × Nat) :=
  (placed 0 history).drop ((placed 0 history).length - snippets.length)

/-! ## All or nothing -/

/-- The assistant text of the last answer. -/
def answer_text (made : List (Response β)) : Text :=
  match made.getLast? with
  | some response => (get_last_assistant_message_from_turn response.items).getD []
  | none => []

/-- A compaction that fails leaves the history as it was. One that succeeds has its summary from
the answer and its snippets from the history before. -/
def AllOrNothing (failed : Ended β → Prop) (made : List (Response β)) (before : Session β)
    (ended : Ended β) (after : Session β) : Prop :=
  (failed ended → after.history = before.history) ∧
  ∀ c, ended = .Compacted c →
    c.summary_text = answer_text made ∧
      ∀ q ∈ quoted c.history_snapshot c.snippets, q.2 < before.history.length

/-- `perform_compaction` returns an error and has not fallen back. -/
def is_aborted (ended : Ended β) : Prop := ∃ e, ended = .Aborted e

/-- `run_compact_task_inner_inline` returns an empty list. -/
def returns_nothing (ended : Ended β) : Prop := ended.returned = []

/-- An error that ends a loop only through the emergency fallback. -/
def falls_back (e : CodexErr) : Bool := e == .UsageLimitReached || is_context_overflow_error e

/-- What the answers put into the live history. -/
def recorded (made : List (Response β)) : List (ResponseItem β) :=
  (made.flatMap Response.items).filter is_api_message

/-- Nothing of the answers is seen: before an error there is no item that is recorded, and before
the completion none that makes a snippet, and where the completed answer has no text, the newest
text before it is empty. -/
def Unseen (before : List (ResponseItem β)) (made : List (Response β)) : Prop :=
  ∀ last, made.getLast? = some last →
    match last.error with
    | some e => falls_back e = false → recorded made = []
    | none =>
      (∀ item ∈ recorded made, quote item = none) ∧
      (get_last_assistant_message_from_turn last.items = none →
        (get_last_assistant_message_from_turn (before ++ recorded made.dropLast)).getD [] = [])

/-! ## What an attempt leaves -/

/-- The error of the last answer and why the loop stops. -/
def Stops : Option CodexErr → Stopped → Prop
  | none, .Completed => True
  | some e, .Emergency _ => falls_back e = true
  | some e, .Interrupted => falls_back e = false ∧ e = .Interrupted
  | some e, .Failed e' => falls_back e = false ∧ e = e'
  | _, _ => False

theorem stops_of_on_error {max_retries : Nat} {s : RetryState β} {e : CodexErr}
    {stopped : Stopped} (h : on_error max_retries s e = .inr stopped) : Stops (some e) stopped := by
  unfold on_error at h
  split at h
  · obtain rfl := Sum.inr.inj h
    exact ⟨by decide, rfl⟩
  · split at h
    · obtain rfl := Sum.inr.inj h
      rfl
    · cases h
  · next husage =>
    split at h
    · next hoverflow =>
      split at h
      · cases h
      · obtain rfl := Sum.inr.inj h
        have hfalls : falls_back e = true := by simp [falls_back, hoverflow]
        exact hfalls
    · next hoverflow =>
      split at h
      · cases h
      · obtain rfl := Sum.inr.inj h
        have hfalls : falls_back e = false := by
          have hne : e ≠ .UsageLimitReached := husage
          simp [falls_back, hoverflow, hne]
        exact ⟨hfalls, rfl⟩

/-- The answers of a loop: one for each of its prompts. -/
def answered (prepare : List (ResponseItem β) → List (ResponseItem β)) (max_retries : Nat)
    (responses : List (Response β)) (s : RetryState β) : List (Response β) :=
  responses.take (retry_loop prepare max_retries (responses.map Response.error) s).length

/-- The loop adds what its answers record to the live history, and stops by its last answer. -/
theorem attempt_loop_spec (prepare : List (ResponseItem β) → List (ResponseItem β))
    (max_retries : Nat) (responses : List (Response β)) (s : RetryState β) (session : Session β) :
    let made := answered prepare max_retries responses s
    let result := attempt_loop prepare max_retries responses s session
    result.2 = session.drain_to_completed (made.flatMap Response.items) ∧
      ∀ stopped, result.1 = some stopped →
        ∃ last, made.getLast? = some last ∧ Stops last.error stopped := by
  dsimp only
  induction responses generalizing s session with
  | nil =>
    exact ⟨by simp [attempt_loop, answered, Session.drain_to_completed], by simp [attempt_loop]⟩
  | cons response responses ih =>
    unfold attempt_loop answered
    rw [List.map_cons]
    unfold retry_loop
    dsimp only
    rcases herror : response.error with _ | e
    · refine ⟨by simp, ?_⟩
      rintro stopped hstopped
      obtain rfl := Option.some.inj hstopped
      exact ⟨response, by simp, by rw [herror]; trivial⟩
    · dsimp only
      rcases hnext : on_error max_retries { s with turn_input := prepare s.turn_input } e
        with s' | st
      · obtain ⟨hsession, hstops⟩ := ih s' (session.drain_to_completed response.items)
        dsimp only
        rw [List.length_cons, List.take_succ_cons]
        refine ⟨?_, fun stopped hstopped => ?_⟩
        · rw [hsession]
          simp [Session.drain_to_completed, answered]
        · obtain ⟨last, hlast, hstop⟩ := hstops stopped hstopped
          refine ⟨last, ?_, hstop⟩
          rw [List.getLast?_cons]
          unfold answered at hlast
          rw [hlast]
          rfl
      · refine ⟨by simp, ?_⟩
        rintro stopped hstopped
        obtain rfl := Option.some.inj hstopped
        exact ⟨response, by simp, by rw [herror]; exact stops_of_on_error hnext⟩

/-! ## The newest messages are quoted -/

/-- What the loop does with an item: it goes on without a snippet, or the item makes one, which is
left out when enough is quoted or added. -/
theorem collect_cases {item : ResponseItem β} {items : List (ResponseItem β)}
    {snippets result : List CompactionSnippet} {total_bytes : Nat}
    (h : collect snippets total_bytes (item :: items) = some result) :
    (quote item = none ∧ collect snippets total_bytes items = some result) ∨
      ∃ snippet, quote item = some snippet ∧
        ((result = snippets ∧ snippets ≠ []) ∨
          ∃ total_bytes', collect (snippets ++ [snippet]) total_bytes' items = some result) := by
  rw [collect] at h
  rcases htext : snippet_text item with _ | ⟨role, text⟩
  · rw [htext] at h
    exact .inl ⟨by simp [quote, htext], h⟩
  · rw [htext] at h
    dsimp only at h
    rcases htruncated : truncate_for_compact text COMPACT_TEXT_CONTENT_MAX_BYTES with
      _ | truncated
    · rw [htruncated] at h
      cases h
    · rw [htruncated] at h
      dsimp only at h
      have hquote : quote item =
          if Text.trim truncated = [] then none else some ⟨role, truncated⟩ := by
        simp [quote, htext, htruncated]
      split_ifs at h with hblank hfull hbytes
      · rw [if_pos hblank] at hquote
        exact .inl ⟨hquote, h⟩
      · rw [if_neg hblank] at hquote
        have hne : snippets ≠ [] := by
          rintro rfl
          exact absurd hfull (by decide)
        exact .inr ⟨_, hquote, .inl ⟨(Option.some.inj h).symm, hne⟩⟩
      · rw [if_neg hblank] at hquote
        exact .inr ⟨_, hquote, .inl ⟨(Option.some.inj h).symm, hbytes.1⟩⟩
      · rw [if_neg hblank] at hquote
        exact .inr ⟨_, hquote, .inr ⟨_, h⟩⟩

/-- The loop adds the newest snippets, in their order. -/
theorem collect_takes {items : List (ResponseItem β)} {snippets result : List CompactionSnippet}
    {total_bytes : Nat} (h : collect snippets total_bytes items = some result) :
    ∃ n, result = snippets ++ (items.filterMap quote).take n := by
  induction items generalizing snippets total_bytes with
  | nil =>
    obtain rfl := Option.some.inj h
    exact ⟨0, by simp⟩
  | cons item items ih =>
    rcases collect_cases h with ⟨hquote, h⟩ | ⟨snippet, hquote, ⟨rfl, -⟩ | ⟨total_bytes', h⟩⟩
    · rw [List.filterMap_cons_none hquote]
      exact ih h
    · exact ⟨0, by simp⟩
    · obtain ⟨n, rfl⟩ := ih h
      refine ⟨n + 1, ?_⟩
      rw [List.filterMap_cons_some hquote, List.take_succ_cons, List.append_assoc]
      rfl

/-- The newest item that makes a snippet is always quoted. -/
theorem collect_ne_nil {items : List (ResponseItem β)} {result : List CompactionSnippet}
    {total_bytes : Nat} (h : collect [] total_bytes items = some result)
    (hquotes : items.filterMap quote ≠ []) : result ≠ [] := by
  induction items with
  | nil => exact absurd rfl hquotes
  | cons item items ih =>
    rcases collect_cases h with ⟨hquote, h⟩ | ⟨snippet, hquote, ⟨-, hne⟩ | ⟨total_bytes', h⟩⟩
    · rw [List.filterMap_cons_none hquote] at hquotes
      exact ih h hquotes
    · exact absurd rfl hne
    · obtain ⟨n, rfl⟩ := collect_takes h
      simp

theorem placed_snippets (start : Nat) (items : List (ResponseItem β)) :
    (placed start items).map Prod.fst = items.filterMap quote := by
  induction items generalizing start with
  | nil => rfl
  | cons item items ih =>
    unfold placed at ih ⊢
    rw [List.zipIdx_cons, List.filterMap_cons, List.filterMap_cons]
    rcases hquote : quote item with _ | snippet
    · simpa [hquote] using ih (start + 1)
    · simpa [hquote] using ih (start + 1)

theorem placed_append (start : Nat) (a b : List (ResponseItem β)) :
    placed start (a ++ b) = placed start a ++ placed (start + a.length) b := by
  unfold placed
  rw [List.zipIdx_append, List.filterMap_append]

theorem placed_between {start : Nat} {items : List (ResponseItem β)}
    {q : CompactionSnippet × Nat} (h : q ∈ placed start items) :
    start ≤ q.2 ∧ q.2 < start + items.length := by
  unfold placed at h
  obtain ⟨⟨item, place⟩, hmem, hq⟩ := List.mem_filterMap.mp h
  obtain ⟨snippet, -, rfl⟩ := Option.map_eq_some_iff.mp hq
  have hstart := List.le_snd_of_mem_zipIdx hmem
  have hend := List.snd_lt_add_of_mem_zipIdx hmem
  exact ⟨hstart, hend⟩

theorem placed_eq_nil (start : Nat) (items : List (ResponseItem β)) :
    placed start items = [] ↔ ∀ item ∈ items, quote item = none := by
  rw [← List.map_eq_nil_iff (f := Prod.fst), placed_snippets, List.filterMap_eq_nil_iff]

/-- The snippets of a history are the newest that its items make. -/
theorem collect_compaction_snippets_eq {history : List (ResponseItem β)}
    {snippets : List CompactionSnippet} (h : collect_compaction_snippets history = some snippets) :
    ∃ n, snippets = (history.filterMap quote).drop n := by
  obtain ⟨result, hcollect, rfl⟩ := Option.map_eq_some_iff.mp h
  obtain ⟨n, rfl⟩ := collect_takes hcollect
  refine ⟨(history.filterMap quote).length - n, ?_⟩
  rw [List.nil_append, List.filterMap_reverse, List.reverse_take, List.reverse_reverse,
    List.length_reverse]

theorem quoted_snippets {history : List (ResponseItem β)} {snippets : List CompactionSnippet}
    (h : collect_compaction_snippets history = some snippets) :
    (quoted history snippets).map Prod.fst = snippets := by
  obtain ⟨n, rfl⟩ := collect_compaction_snippets_eq h
  unfold quoted
  rw [List.map_drop, placed_snippets]
  have hlength : (placed 0 history).length = (history.filterMap quote).length := by
    rw [← placed_snippets 0 history, List.length_map]
  rw [hlength, List.length_drop]
  by_cases hn : n ≤ (history.filterMap quote).length
  · congr 1
    omega
  · rw [List.drop_eq_nil_of_le (by omega), List.drop_eq_nil_of_le (by omega)]

/-- The snippets come from the history before the answers exactly when the answers make none. -/
theorem quoted_before_iff {before answers : List (ResponseItem β)}
    {snippets : List CompactionSnippet}
    (h : collect_compaction_snippets (before ++ answers) = some snippets) :
    (∀ q ∈ quoted (before ++ answers) snippets, q.2 < before.length) ↔
      ∀ item ∈ answers, quote item = none := by
  have happend := placed_append 0 before answers
  constructor
  · intro hbefore
    rw [← placed_eq_nil (0 + before.length)]
    by_contra hne
    obtain ⟨init, q, hlast⟩ := (List.eq_nil_or_concat' _).resolve_left hne
    have hnonempty : snippets ≠ [] := by
      obtain ⟨result, hcollect, rfl⟩ := Option.map_eq_some_iff.mp h
      rw [ne_eq, List.reverse_eq_nil_iff]
      apply collect_ne_nil hcollect
      rw [List.filterMap_reverse, ne_eq, List.reverse_eq_nil_iff, ← placed_snippets 0, happend,
        hlast]
      simp
    have hq : q ∈ quoted (before ++ answers) snippets := by
      unfold quoted
      rw [happend, hlast, ← List.append_assoc]
      have hpos := List.length_pos_iff.mpr hnonempty
      have hlength : (placed 0 before ++ init ++ [q]).length - snippets.length ≤
          (placed 0 before ++ init).length := by
        simp only [List.length_append, List.length_singleton]
        omega
      rw [List.drop_append_of_le_length hlength]
      simp
    have hmem : q ∈ placed (0 + before.length) answers := by
      rw [hlast]
      simp
    have hafter := placed_between hmem
    have hlt := hbefore q hq
    omega
  · intro hnone q hq
    rw [← placed_eq_nil (0 + before.length)] at hnone
    have hmem := List.mem_of_mem_drop hq
    rw [happend, hnone, List.append_nil] at hmem
    simpa using (placed_between hmem).2

/-! ## The summary -/

theorem last_text_append (a b : List (ResponseItem β)) :
    get_last_assistant_message_from_turn (a ++ b) =
      (get_last_assistant_message_from_turn b).or (get_last_assistant_message_from_turn a) := by
  unfold get_last_assistant_message_from_turn
  rw [List.reverse_append, List.findSome?_append]

/-- What is not recorded has no assistant text. -/
theorem last_text_recorded (items : List (ResponseItem β)) :
    get_last_assistant_message_from_turn (items.filter is_api_message) =
      get_last_assistant_message_from_turn items := by
  induction items with
  | nil => rfl
  | cons item items ih =>
    have hcons (items : List (ResponseItem β)) : item :: items = [item] ++ items := rfl
    rw [hcons items, List.filter_append, last_text_append, last_text_append, ih]
    congr 1
    cases item with
    | Message id role content end_turn phase =>
      by_cases hrole : role = "system".toList
      · subst hrole
        rfl
      · rw [List.filter_cons_of_pos (by simpa [is_api_message] using hrole)]
        rfl
    | Other kind id => cases kind <;> rfl
    | _ => rfl

theorem recorded_concat (init : List (Response β)) (last : Response β) :
    recorded (init ++ [last]) = recorded init ++ last.items.filter is_api_message := by
  simp [recorded]

/-- The summary is the text of the last answer exactly when that has one or there is none
before. -/
theorem summary_iff (before : List (ResponseItem β)) {made : List (Response β)}
    {last : Response β} (hlast : made.getLast? = some last) :
    (get_last_assistant_message_from_turn (before ++ recorded made)).getD [] = answer_text made ↔
      (get_last_assistant_message_from_turn last.items = none →
        (get_last_assistant_message_from_turn (before ++ recorded made.dropLast)).getD [] =
          []) := by
  obtain ⟨init, rfl⟩ := List.getLast?_eq_some_iff.mp hlast
  unfold answer_text
  rw [hlast, recorded_concat, ← List.append_assoc, last_text_append, last_text_recorded,
    List.dropLast_concat]
  dsimp only
  rcases get_last_assistant_message_from_turn last.items with _ | text
  · simp
  · simp

/-! ## When a compaction is all or nothing -/

theorem Compaction.of_spec {tc : TurnContext} {env : List EnvironmentItem}
    {history_snapshot : List (ResponseItem β)} {c : Compaction β}
    (h : Compaction.of tc env history_snapshot = some c) :
    c.history_snapshot = history_snapshot ∧
      c.summary_text = (get_last_assistant_message_from_turn history_snapshot).getD [] ∧
      collect_compaction_snippets history_snapshot = some c.snippets ∧
      c.new_history = build_compacted_history (build_initial_context tc env) c.snippets
        c.summary_text := by
  obtain ⟨snippets, hsnippets, hc⟩ := Option.bind_eq_some_iff.mp h
  obtain rfl := Option.some.inj hc
  exact ⟨rfl, rfl, hsnippets, rfl⟩

/-- A loop that completes has an answer without an error, every other one stops at an error. -/
theorem Stops.error_eq {error : Option CodexErr} {stopped : Stopped} (h : Stops error stopped) :
    (stopped = .Completed ∧ error = none) ∨
      (stopped ≠ .Completed ∧ ∃ e, error = some e ∧ Stops (some e) stopped) := by
  cases error with
  | none => cases stopped with
    | Completed => exact .inl ⟨rfl, rfl⟩
    | Emergency reason => exact h.elim
    | Interrupted => exact h.elim
    | Failed e => exact h.elim
  | some e => cases stopped with
    | Completed => exact h.elim
    | Emergency reason => exact .inr ⟨by simp, e, rfl, h⟩
    | Interrupted => exact .inr ⟨by simp, e, rfl, h⟩
    | Failed e' => exact .inr ⟨by simp, e, rfl, h⟩

theorem last_only {made : List (Response β)} {last : Response β} {P : Response β → Prop}
    (hlast : made.getLast? = some last) :
    (∀ last', made.getLast? = some last' → P last') ↔ P last :=
  ⟨fun hall => hall last hlast, fun h _ hlast' => Option.some.inj (hlast.symm.trans hlast') ▸ h⟩

theorem unseen_of_error {before : List (ResponseItem β)} {made : List (Response β)}
    {last : Response β} {e : CodexErr} (hlast : made.getLast? = some last)
    (herror : last.error = some e) :
    Unseen before made ↔ (falls_back e = false → recorded made = []) := by
  rw [Unseen, last_only hlast, herror]

theorem unseen_of_answer {before : List (ResponseItem β)} {made : List (Response β)}
    {last : Response β} (hlast : made.getLast? = some last) (herror : last.error = none) :
    Unseen before made ↔ (∀ item ∈ recorded made, quote item = none) ∧
      (get_last_assistant_message_from_turn last.items = none →
        (get_last_assistant_message_from_turn (before ++ recorded made.dropLast)).getD [] =
          []) := by
  rw [Unseen, last_only hlast, herror]

/-- The compaction is made of the answer alone exactly when nothing of the attempts before it is
seen. -/
theorem compacted_all_or_nothing_iff {failed : Ended β → Prop} {tc : TurnContext}
    {env : List EnvironmentItem} {made : List (Response β)} {last : Response β}
    {before after : Session β} {c : Compaction β} (hfailed : ¬failed (.Compacted c))
    (hlast : made.getLast? = some last) (herror : last.error = none)
    (hc : Compaction.of tc env (before.history ++ recorded made) = some c) :
    AllOrNothing failed made before (.Compacted c) after ↔ Unseen before.history made := by
  obtain ⟨hsnapshot, hsummary, hsnippets, -⟩ := Compaction.of_spec hc
  rw [unseen_of_answer hlast herror, ← summary_iff before.history hlast,
    ← quoted_before_iff hsnippets]
  constructor
  · rintro ⟨-, hall⟩
    obtain ⟨htext, hplaces⟩ := hall c rfl
    rw [← hsummary, ← hsnapshot]
    exact ⟨hplaces, htext⟩
  · rintro ⟨hplaces, htext⟩
    refine ⟨fun h => absurd h hfailed, fun c' hc' => ?_⟩
    obtain rfl := Ended.Compacted.inj hc'
    rw [hsummary, hsnapshot]
    exact ⟨htext, hplaces⟩

/-- A compaction that is aborted leaves the history as it was exactly when no attempt put something
into it. -/
theorem aborted_all_or_nothing_iff {failed : Ended β → Prop} {made : List (Response β)}
    {last : Response β} {before after : Session β} {e e' : CodexErr}
    (hfailed : failed (.Aborted e')) (hlast : made.getLast? = some last)
    (herror : last.error = some e)
    (hfalls : falls_back e = false) (hhistory : after.history = before.history ++ recorded made) :
    AllOrNothing failed made before (.Aborted e') after ↔ Unseen before.history made := by
  have hunchanged : after.history = before.history ↔ recorded made = [] := by
    rw [hhistory, List.append_right_eq_self]
  rw [unseen_of_error hlast herror]
  simp [AllOrNothing, hfalls, hfailed, hunchanged]

/-- A run of the loop and its conclusion is all or nothing exactly when nothing of the answers is
seen. -/
theorem conclude_all_or_nothing_iff {failed : Ended β → Prop}
    (hcompacted : ∀ tc env history c, Compaction.of tc env history = some c →
      ¬failed (.Compacted c))
    (hemergency : ∀ context warning,
      ¬failed (.Emergency (build_emergency_compacted_history context warning)))
    (haborted : ∀ e, failed (.Aborted e)) {to_string : CodexErr → Text} {tc : TurnContext}
    {sub_id : Text} {env : List EnvironmentItem}
    {record : List (ResponseItem β) → List (ResponseItem β)} {made : List (Response β)}
    {before : Session β} {result : Option Stopped × Session β}
    (hsession : result.2 = before.drain_to_completed (made.flatMap Response.items))
    (hstops : ∀ stopped, result.1 = some stopped →
      ∃ last, made.getLast? = some last ∧ Stops last.error stopped)
    {ended : Ended β} {after : Session β}
    (h : conclude to_string tc sub_id env record result = some (ended, after)) :
    AllOrNothing failed made before ended after ↔ Unseen before.history made := by
  obtain ⟨stopped, live⟩ := result
  rcases stopped with _ | stopped
  · cases h
  obtain ⟨last, hlast, hstop⟩ := hstops stopped rfl
  have hhistory : live.history = before.history ++ recorded made :=
    congrArg Session.history hsession
  obtain ⟨rfl, herror⟩ | ⟨hne, e, herror, hstop⟩ := hstop.error_eq
  · obtain ⟨c, hc, hend⟩ := Option.bind_eq_some_iff.mp h
    obtain ⟨rfl, rfl⟩ := Prod.mk.inj (Option.some.inj hend)
    rw [hhistory] at hc
    exact compacted_all_or_nothing_iff (hcompacted _ _ _ _ hc) hlast herror hc
  cases stopped with
  | Completed => exact absurd rfl hne
  | Emergency reason =>
    obtain ⟨rfl, rfl⟩ := Prod.mk.inj (Option.some.inj h)
    have hfalls : falls_back e = true := hstop
    rw [unseen_of_error hlast herror]
    simp [AllOrNothing, hfalls, hemergency]
  | Interrupted =>
    obtain ⟨rfl, rfl⟩ := Prod.mk.inj (Option.some.inj h)
    exact aborted_all_or_nothing_iff (haborted _) hlast herror hstop.1 hhistory
  | Failed e' =>
    obtain ⟨rfl, rfl⟩ := Prod.mk.inj (Option.some.inj h)
    exact aborted_all_or_nothing_iff (haborted _) hlast herror hstop.1 hhistory

/-- A compaction that succeeds leaves what one with all the answers in one would. -/
theorem completed_as_one_answer {to_json : List β → Text} {to_string : CodexErr → Text}
    {tc : TurnContext} {sub_id : Text} {env : List EnvironmentItem} {max_retries : Nat}
    {turn_input : List (ResponseItem β)} {responses : List (Response β)} {before after : Session β}
    {c : Compaction β}
    (h : perform_compaction to_json to_string tc sub_id env max_retries turn_input responses
      before = some (.Compacted c, after)) :
    before.perform_compaction tc sub_id
      ((performed to_json max_retries turn_input responses).flatMap Response.items) env =
        some after := by
  obtain ⟨items, hitems, h⟩ := Option.bind_eq_some_iff.mp h
  obtain ⟨hsession, -⟩ := attempt_loop_spec prune_orphan_tool_outputs max_retries responses
    (.start items) before
  unfold performed perform_compaction_prompts
  rw [hitems]
  rcases hresult : attempt_loop prune_orphan_tool_outputs max_retries responses (.start items)
    before with ⟨_ | _ | _ | _, live⟩ <;> rw [hresult] at h hsession <;> try cases h
  obtain ⟨c', hc', hend⟩ := Option.bind_eq_some_iff.mp h
  obtain ⟨hcompacted, rfl⟩ := Prod.mk.inj (Option.some.inj hend)
  obtain rfl := Ended.Compacted.inj hcompacted
  obtain ⟨-, hsummary, hsnippets, hnew⟩ := Compaction.of_spec hc'
  unfold Session.perform_compaction
  dsimp only at hsession
  unfold answered at hsession
  rw [← hsession, hnew, hsummary]
  dsimp only
  rw [hsnippets]
  rfl

/-- Both compactions are all or nothing exactly when nothing of the answers they wait for is
seen. -/
theorem compaction_is_all_or_nothing_iff_unseen (to_json : List β → Text)
    (to_string : CodexErr → Text) (tc : TurnContext) (sub_id : Text) (env : List EnvironmentItem)
    (max_retries : Nat) (turn_input : List (ResponseItem β)) (responses : List (Response β))
    (before : Session β) {ended : Ended β} {after : Session β} :
    (perform_compaction to_json to_string tc sub_id env max_retries turn_input responses before =
        some (ended, after) →
      let made := performed to_json max_retries turn_input responses
      (AllOrNothing is_aborted made before ended after ↔ Unseen before.history made)) ∧
    (run_compact_task_inner_inline to_json to_string tc sub_id env max_retries turn_input responses
        before = some (ended, after) →
      let made := performed_inline to_json max_retries turn_input responses
      (AllOrNothing returns_nothing made before ended after ↔ Unseen before.history made)) := by
  constructor
  · intro h
    obtain ⟨items, hitems, h⟩ := Option.bind_eq_some_iff.mp h
    obtain ⟨hsession, hstops⟩ := attempt_loop_spec prune_orphan_tool_outputs max_retries responses
      (.start items) before
    unfold performed perform_compaction_prompts
    rw [hitems]
    apply conclude_all_or_nothing_iff _ _ _ hsession hstops h
    · rintro tc env history c - ⟨e, he⟩
      cases he
    · rintro context warning ⟨e, he⟩
      cases he
    · exact fun e => ⟨e, rfl⟩
  · intro h
    obtain ⟨items, hitems, h⟩ := Option.bind_eq_some_iff.mp h
    obtain ⟨hsession, hstops⟩ := attempt_loop_spec id max_retries responses (.start items) before
    unfold performed_inline run_compact_task_inner_inline_prompts
    rw [hitems]
    apply conclude_all_or_nothing_iff _ _ _ hsession hstops h
    · intro tc env history c hc hnothing
      obtain ⟨-, -, -, hnew⟩ := Compaction.of_spec hc
      have hempty : c.new_history = [] := hnothing
      rw [hnew] at hempty
      simp [build_compacted_history] at hempty
    · intro context warning hnothing
      have hempty : build_emergency_compacted_history context warning = [] := hnothing
      simp [build_emergency_compacted_history] at hempty
    · exact fun e => rfl

/-! A completed answer without a message, a partial answer before an error, and a completed answer
that is quoted as one of the exchanges it sums up. -/

def before : Session Unit := ⟨[user_message "Hi.".toList], []⟩

def run (responses : List (Response Unit)) : Option (Ended Unit × Session Unit) :=
  perform_compaction (fun _ => []) (fun _ => []) no_instructions ['s'] [environment] 0
    before.history responses before

def reasoning_only : List (Response Unit) := [⟨[.Reasoning none () none none], none⟩]

def partial_answer : List (Response Unit) :=
  [⟨[assistant_message "So far".toList], some (.Stream "closed".toList)⟩]

def full_answer : List (Response Unit) := [⟨[assistant_message "Greeted.".toList], none⟩]

theorem reasoning_is_unseen :
    ∃ ended after, run reasoning_only = some (ended, after) ∧
      AllOrNothing is_aborted reasoning_only before ended after := by
  refine ⟨_, _, rfl, ?_⟩
  apply ((compaction_is_all_or_nothing_iff_unseen (fun _ => []) (fun _ => []) no_instructions ['s']
    [environment] 0 before.history reasoning_only before).1 rfl).mpr
  intro last hlast
  obtain rfl := Option.some.inj hlast
  exact ⟨by decide, fun _ => rfl⟩

theorem answers_are_seen :
    (∃ ended after, run partial_answer = some (ended, after) ∧
      ¬AllOrNothing is_aborted partial_answer before ended after) ∧
    ∃ ended after, run full_answer = some (ended, after) ∧
      ¬AllOrNothing is_aborted full_answer before ended after := by
  refine ⟨⟨_, _, rfl, ?_⟩, _, _, rfl, ?_⟩
  · rintro ⟨hfailed, -⟩
    exact absurd (congrArg List.length (hfailed ⟨_, rfl⟩)) (by decide)
  · rintro ⟨-, hcompacted⟩
    obtain ⟨-, hplaces⟩ := hcompacted _ rfl
    exact absurd hplaces (by decide +kernel)

end Ecode.attempts
