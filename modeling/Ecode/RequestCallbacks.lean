-- The requests that the app server makes of its clients, in any order of their steps: what the
-- receiver of a request gets depends on nothing but that request
-- (app-server/src/outgoing_message.rs).
import Ecode.OutgoingMessages

namespace Ecode.app_server

/-- What became of the callback of a request. A sender that is dropped makes its receiver fail. -/
inductive Outcome (V : Type) where
  | unregistered
  | waiting
  | answered (result : V)
  | dropped
  deriving DecidableEq, Repr

/-- The calls `K` of `send_request_impl`, each made once. -/
structure Callbacks (K V : Type) where
  table : OutgoingMessageSender K
  /-- The id that a call has taken, and the connection that it is for. -/
  requests : K → Option (RequestId × Option ConnectionId)
  outcome : K → Outcome V

/-- A call takes its id, registers its callback and queues its envelope, and takes the callback out
again if the envelope cannot be queued. Clients answer under any id, and connections close. -/
inductive CallbackAction (K V : Type) where
  | take_id (k : K) (connection_id : Option ConnectionId)
  | register (k : K)
  | queue_failed (k : K)
  | notify_client_response (connection_id : Option ConnectionId) (id : RequestId) (result : V)
  | notify_client_error (connection_id : Option ConnectionId) (id : RequestId)
  | clear_callbacks_for_connection (connection_id : ConnectionId)
  deriving DecidableEq, Repr

namespace Callbacks

variable {K V : Type}

def start : Callbacks K V where
  table := .new
  requests := fun _ => none
  outcome := fun _ => .unregistered

section steps

variable [DecidableEq K]

/-- The sender of an entry that leaves the table unused is dropped. -/
def drop_entry (s : Callbacks K V) (id : RequestId) : K → Outcome V :=
  match s.table.request_id_to_callback id with
  | some pending => Function.update s.outcome pending.sender .dropped
  | none => s.outcome

/-- The senders of a closed connection are dropped. -/
def drop_connection (s : Callbacks K V) (connection_id : ConnectionId) (k : K) : Outcome V :=
  match (s.requests k).bind fun r => s.table.request_id_to_callback r.1 with
  | some pending =>
    if pending.sender = k ∧ pending.connection_id = some connection_id then .dropped
    else s.outcome k
  | none => s.outcome k

def step (s : Callbacks K V) : CallbackAction K V → Option (Callbacks K V)
  | .take_id k connection_id =>
    match s.requests k with
    | none =>
      let taken := s.table.take_request_id
      some { s with
        table := taken.1
        requests := Function.update s.requests k (some (taken.2, connection_id)) }
    | some _ => none
  | .register k =>
    match s.requests k, s.outcome k with
    | some (id, connection_id), .unregistered =>
      some { s with
        table := s.table.insert_callback id ⟨connection_id, k⟩
        outcome := Function.update (s.drop_entry id) k .waiting }
    | _, _ => none
  | .queue_failed k =>
    match s.requests k, s.outcome k with
    | _, .unregistered => none
    | some (id, _), _ =>
      some { s with table := s.table.remove_callback id, outcome := s.drop_entry id }
    | none, _ => none
  | .notify_client_response connection_id id result =>
    let taken := s.table.take_callback connection_id id
    some { s with
      table := taken.1
      outcome :=
        match taken.2 with
        | some k => Function.update s.outcome k (.answered result)
        | none => s.outcome }
  | .notify_client_error connection_id id =>
    let taken := s.table.take_callback connection_id id
    some { s with
      table := taken.1
      outcome :=
        match taken.2 with
        | some k => Function.update s.outcome k .dropped
        | none => s.outcome }
  | .clear_callbacks_for_connection connection_id =>
    some { s with
      table := s.table.clear_callbacks_for_connection connection_id
      outcome := s.drop_connection connection_id }

end steps

end Callbacks

/-! ## One request alone -/

/-- A message from `sender` counts for a request to `owner`: from another connection it does
not. -/
def Counts (owner sender : Option ConnectionId) : Prop := ∀ o ∈ owner, ∀ c ∈ sender, o = c

instance (owner sender : Option ConnectionId) : Decidable (Counts owner sender) :=
  inferInstanceAs (Decidable (∀ o ∈ owner, ∀ c ∈ sender, o = c))

/-- What becomes of the request of one call that has no others beside it. -/
def lone {K V : Type} [DecidableEq K] (k : K) (id : RequestId) (owner : Option ConnectionId) :
    Outcome V → CallbackAction K V → Outcome V
  | .unregistered, .register k' => if k' = k then .waiting else .unregistered
  | .waiting, .queue_failed k' => if k' = k then .dropped else .waiting
  | .waiting, .notify_client_response sender id' result =>
    if id' = id ∧ Counts owner sender then .answered result else .waiting
  | .waiting, .notify_client_error sender id' =>
    if id' = id ∧ Counts owner sender then .dropped else .waiting
  | .waiting, .clear_callbacks_for_connection c => if owner = some c then .dropped else .waiting
  | o, _ => o

namespace Callbacks

variable {K V : Type} {s t : Callbacks K V} {k k' : K} {id : RequestId}
  {owner : Option ConnectionId}

/-- The entries of the table are the requests that wait, and each call has its own id. -/
structure Registered (s : Callbacks K V) : Prop where
  below : ∀ k id owner, s.requests k = some (id, owner) →
    ∃ n < s.table.next_request_id, id = .Integer n
  distinct : ∀ k k' id owner owner', s.requests k = some (id, owner) →
    s.requests k' = some (id, owner') → k = k'
  entry : ∀ id pending, s.table.request_id_to_callback id = some pending ↔
    s.requests pending.sender = some (id, pending.connection_id) ∧
      s.outcome pending.sender = .waiting
  unnumbered : ∀ k, s.requests k = none → s.outcome k = .unregistered

theorem registered_start : Registered (start : Callbacks K V) where
  below := by simp [start]
  distinct := by simp [start]
  entry := by simp [start, OutgoingMessageSender.new]
  unnumbered := fun _ _ => rfl

/-! ## What a step keeps -/

theorem may_answer_iff (pending : PendingRequestCallback K) (sender : Option ConnectionId) :
    pending.may_answer sender = true ↔ Counts pending.connection_id sender := by
  obtain ⟨owner, k⟩ := pending
  unfold PendingRequestCallback.may_answer Counts
  cases owner <;> cases sender <;> simp

/-- The callback that a message takes out is that of the waiting request for which it counts. -/
theorem Registered.take_callback_cases (h : Registered s) (sender : Option ConnectionId)
    (id : RequestId) :
    (∃ k owner, s.requests k = some (id, owner) ∧ s.outcome k = .waiting ∧ Counts owner sender ∧
      s.table.request_id_to_callback id = some ⟨owner, k⟩ ∧
      s.table.take_callback sender id = (s.table.remove_callback id, some k)) ∨
    ((∀ k owner, s.requests k = some (id, owner) → s.outcome k = .waiting →
      ¬ Counts owner sender) ∧ s.table.take_callback sender id = (s.table, none)) := by
  unfold OutgoingMessageSender.take_callback
  cases hentry : s.table.request_id_to_callback id with
  | none =>
    refine .inr ⟨fun k owner hk hwaiting _ => ?_, rfl⟩
    rw [(h.entry id ⟨owner, k⟩).mpr ⟨hk, hwaiting⟩] at hentry
    cases hentry
  | some pending =>
    obtain ⟨hrequest, hwaiting⟩ := (h.entry id pending).mp hentry
    dsimp only
    split_ifs with hanswer
    · rw [may_answer_iff] at hanswer
      exact .inl ⟨_, _, hrequest, hwaiting, hanswer, rfl, rfl⟩
    · refine .inr ⟨fun k owner hk _ hcounts => hanswer ?_, rfl⟩
      obtain rfl := h.distinct _ _ _ _ _ hk hrequest
      rw [hk] at hrequest
      cases hrequest
      exact (may_answer_iff _ _).mpr hcounts

/-- The id of a call that does not wait has no entry. -/
theorem Registered.no_entry (h : Registered s) (hk : s.requests k = some (id, owner))
    (hout : s.outcome k ≠ .waiting) : s.table.request_id_to_callback id = none := by
  cases hentry : s.table.request_id_to_callback id with
  | none => rfl
  | some pending =>
    obtain ⟨hrequest, hwaiting⟩ := (h.entry id pending).mp hentry
    rw [h.distinct _ _ _ _ _ hrequest hk] at hwaiting
    exact absurd hwaiting hout

theorem remove_callback_of_none {table : OutgoingMessageSender K}
    (h : table.request_id_to_callback id = none) : table.remove_callback id = table := by
  unfold OutgoingMessageSender.remove_callback
  rw [Function.update_eq_self_iff.mpr h.symm]

section steps

variable [DecidableEq K]

/-- An entry that leaves the table leaves the others as they are. -/
theorem Registered.settle (h : Registered s) (hk : s.requests k = some (id, owner))
    {o : Outcome V} (ho : o ≠ .waiting) :
    Registered { s with
      table := s.table.remove_callback id
      outcome := Function.update s.outcome k o } where
  below := h.below
  distinct := h.distinct
  entry id' pending := by
    change Function.update s.table.request_id_to_callback id none id' = some pending ↔
      s.requests pending.sender = some (id', pending.connection_id) ∧
        Function.update s.outcome k o pending.sender = .waiting
    by_cases hid : id' = id
    · subst hid
      rw [Function.update_self]
      refine iff_of_false (by simp) ?_
      rintro ⟨hrequest, hwaiting⟩
      rw [h.distinct _ _ _ _ _ hrequest hk, Function.update_self] at hwaiting
      exact ho hwaiting
    · rw [Function.update_of_ne hid, h.entry]
      refine and_congr_right fun hrequest => ?_
      have hne : pending.sender ≠ k := by
        intro heq
        rw [heq, hk] at hrequest
        cases hrequest
        exact hid rfl
      rw [Function.update_of_ne hne]
  unnumbered k' hk' := by
    have hne : k' ≠ k := by
      rintro rfl
      rw [hk] at hk'
      cases hk'
    change Function.update s.outcome k o k' = _
    rw [Function.update_of_ne hne]
    exact h.unnumbered k' hk'

theorem Registered.take_id (h : Registered s) (hk : s.requests k = none)
    (connection_id : Option ConnectionId) :
    Registered { s with
      table := s.table.take_request_id.1
      requests := Function.update s.requests k
        (some (s.table.take_request_id.2, connection_id)) } := by
  have hnew : ∀ k' owner,
      s.requests k' ≠ some (.Integer s.table.next_request_id, owner) := by
    intro k' owner hk'
    obtain ⟨n, hn, heq⟩ := h.below k' _ owner hk'
    cases heq
    exact absurd hn (lt_irrefl _)
  refine ⟨?_, ?_, ?_, ?_⟩
  · intro k' id owner hk'
    dsimp only [OutgoingMessageSender.take_request_id] at hk' ⊢
    by_cases hkk : k' = k
    · subst hkk
      rw [Function.update_self] at hk'
      cases hk'
      exact ⟨_, Int.lt_succ _, rfl⟩
    · rw [Function.update_of_ne hkk] at hk'
      obtain ⟨n, hn, hid⟩ := h.below k' id owner hk'
      exact ⟨n, hn.trans (Int.lt_succ _), hid⟩
  · intro k₁ k₂ id owner owner' h₁ h₂
    dsimp only [OutgoingMessageSender.take_request_id] at h₁ h₂
    by_cases hk₁ : k₁ = k
    · by_cases hk₂ : k₂ = k
      · rw [hk₁, hk₂]
      · subst hk₁
        rw [Function.update_self] at h₁
        rw [Function.update_of_ne hk₂] at h₂
        cases h₁
        exact absurd h₂ (hnew _ _)
    · rw [Function.update_of_ne hk₁] at h₁
      by_cases hk₂ : k₂ = k
      · subst hk₂
        rw [Function.update_self] at h₂
        cases h₂
        exact absurd h₁ (hnew _ _)
      · rw [Function.update_of_ne hk₂] at h₂
        exact h.distinct _ _ _ _ _ h₁ h₂
  · intro id pending
    change s.table.request_id_to_callback id = some pending ↔ _
    rw [h.entry]
    dsimp only
    by_cases hkk : pending.sender = k
    · rw [hkk, hk, h.unnumbered k hk]
      simp
    · rw [Function.update_of_ne hkk]
  · intro k' hk'
    dsimp only at hk'
    by_cases hkk : k' = k
    · rw [hkk, Function.update_self] at hk'
      cases hk'
    · rw [Function.update_of_ne hkk] at hk'
      exact h.unnumbered k' hk'

theorem Registered.drop_entry_waiting (h : Registered s) (hk : s.requests k = some (id, owner))
    (hout : s.outcome k = .waiting) :
    s.drop_entry id = Function.update s.outcome k .dropped := by
  unfold drop_entry
  rw [(h.entry id ⟨owner, k⟩).mpr ⟨hk, hout⟩]

theorem Registered.drop_entry_settled (h : Registered s) (hk : s.requests k = some (id, owner))
    (hout : s.outcome k ≠ .waiting) : s.drop_entry id = s.outcome := by
  unfold drop_entry
  rw [h.no_entry hk hout]

theorem Registered.register (h : Registered s) (hk : s.requests k = some (id, owner))
    (hout : s.outcome k = .unregistered) :
    Registered { s with
      table := s.table.insert_callback id ⟨owner, k⟩
      outcome := Function.update s.outcome k .waiting } where
  below := h.below
  distinct := h.distinct
  entry id' pending := by
    change Function.update s.table.request_id_to_callback id (some ⟨owner, k⟩) id' =
      some pending ↔ s.requests pending.sender = some (id', pending.connection_id) ∧
        Function.update s.outcome k .waiting pending.sender = .waiting
    by_cases hid : id' = id
    · subst hid
      rw [Function.update_self, Option.some.injEq]
      constructor
      · rintro rfl
        exact ⟨hk, Function.update_self ..⟩
      · rintro ⟨hrequest, -⟩
        obtain ⟨owner', k'⟩ := pending
        obtain rfl := h.distinct _ _ _ _ _ hrequest hk
        rw [hk] at hrequest
        cases hrequest
        rfl
    · rw [Function.update_of_ne hid, h.entry]
      refine and_congr_right fun hrequest => ?_
      have hne : pending.sender ≠ k := by
        intro heq
        rw [heq, hk] at hrequest
        cases hrequest
        exact hid rfl
      rw [Function.update_of_ne hne]
  unnumbered k' hk' := by
    have hne : k' ≠ k := by
      rintro rfl
      rw [hk] at hk'
      cases hk'
    change Function.update s.outcome k .waiting k' = _
    rw [Function.update_of_ne hne]
    exact h.unnumbered k' hk'

theorem Registered.drop_connection_eq (h : Registered s) (hk : s.requests k = some (id, owner))
    (c : ConnectionId) :
    s.drop_connection c k =
      lone k id owner (s.outcome k) (.clear_callbacks_for_connection c) := by
  unfold drop_connection
  rw [hk, Option.bind_some]
  cases hout : s.outcome k with
  | waiting =>
    rw [(h.entry id ⟨owner, k⟩).mpr ⟨hk, hout⟩]
    simp [lone]
  | _ =>
    rw [h.no_entry hk (by simp [hout])]
    rfl

theorem Registered.clear (h : Registered s) (c : ConnectionId) :
    Registered { s with
      table := s.table.clear_callbacks_for_connection c
      outcome := s.drop_connection c } where
  below := h.below
  distinct := h.distinct
  entry id pending := by
    change (s.table.request_id_to_callback id).filter _ = some pending ↔
      s.requests pending.sender = some (id, pending.connection_id) ∧
        s.drop_connection c pending.sender = .waiting
    rw [Option.filter_eq_some_iff, h.entry, and_assoc]
    refine and_congr_right fun hrequest => ?_
    rw [h.drop_connection_eq hrequest]
    cases hout : s.outcome pending.sender with
    | waiting =>
      cases hc : pending.connection_id with
      | none => simp [lone]
      | some owner => by_cases heq : owner = c <;> simp [lone, heq]
    | _ => simp [lone]
  unnumbered k hk := by
    change s.drop_connection c k = _
    unfold drop_connection
    rw [hk]
    exact h.unnumbered k hk

/-! ## The law of one step -/

/-- The state after a message that settles the callback it takes out. -/
def told (s : Callbacks K V) (sender : Option ConnectionId) (id : RequestId) (o : Outcome V) :
    Callbacks K V :=
  { s with
    table := (s.table.take_callback sender id).1
    outcome :=
      match (s.table.take_callback sender id).2 with
      | some k => Function.update s.outcome k o
      | none => s.outcome }

theorem Registered.told (h : Registered s) (sender : Option ConnectionId) (id : RequestId)
    {o : Outcome V} (ho : o ≠ .waiting) :
    Registered (s.told sender id o) ∧ ∀ k id' owner, s.requests k = some (id', owner) →
      (s.outcome k = .waiting → id = id' ∧ Counts owner sender →
        (s.told sender id o).outcome k = o) ∧
      ((s.outcome k = .waiting → ¬ (id = id' ∧ Counts owner sender)) →
        (s.told sender id o).outcome k = s.outcome k) := by
  unfold Callbacks.told
  rcases h.take_callback_cases sender id with
    ⟨k, owner, hk, hwaiting, hcounts, -, htaken⟩ | ⟨hnone, htaken⟩
  · rw [htaken]
    refine ⟨h.settle hk ho, fun k' id' owner' hk' => ⟨fun _ hmatch => ?_, fun hother => ?_⟩⟩
    · obtain ⟨rfl, -⟩ := hmatch
      rw [h.distinct _ _ _ _ _ hk' hk]
      exact Function.update_self ..
    · have hne : k' ≠ k := by
        rintro rfl
        rw [hk] at hk'
        cases hk'
        exact hother hwaiting ⟨rfl, hcounts⟩
      exact Function.update_of_ne hne ..
  · rw [htaken]
    refine ⟨h, fun k id' owner hk => ⟨fun hwaiting hmatch => ?_, fun _ => rfl⟩⟩
    obtain ⟨rfl, hcounts⟩ := hmatch
    exact absurd hcounts (hnone k owner hk hwaiting)

/-- A step keeps the entries right, and does to each request what it does to it alone. -/
theorem Registered.step (h : Registered s) {a : CallbackAction K V} (hstep : s.step a = some t) :
    Registered t ∧ ∀ k id owner, t.requests k = some (id, owner) →
      t.outcome k = lone k id owner (s.outcome k) a := by
  cases a with
  | take_id k₀ connection_id =>
    simp only [Callbacks.step] at hstep
    split at hstep
    · next hnone =>
      obtain rfl := Option.some.inj hstep
      refine ⟨h.take_id hnone connection_id, fun k id owner _ => ?_⟩
      cases s.outcome k <;> rfl
    · cases hstep
  | register k₀ =>
    simp only [Callbacks.step] at hstep
    split at hstep
    · next id₀ owner₀ hk₀ hout₀ =>
      obtain rfl := Option.some.inj hstep
      rw [h.drop_entry_settled hk₀ (by simp [hout₀])]
      refine ⟨h.register hk₀ hout₀, fun k id owner _ => ?_⟩
      dsimp only
      by_cases hkk : k = k₀
      · subst hkk
        rw [Function.update_self, hout₀]
        simp [lone]
      · rw [Function.update_of_ne hkk]
        cases s.outcome k <;> simp [lone, Ne.symm hkk]
    · cases hstep
  | queue_failed k₀ =>
    simp only [Callbacks.step] at hstep
    split at hstep
    · cases hstep
    · next id₀ owner₀ hk₀ hnew =>
      obtain rfl := Option.some.inj hstep
      by_cases hwaiting : s.outcome k₀ = .waiting
      · rw [h.drop_entry_waiting hk₀ hwaiting]
        refine ⟨h.settle hk₀ (by simp), fun k id owner _ => ?_⟩
        dsimp only
        by_cases hkk : k = k₀
        · subst hkk
          rw [Function.update_self, hwaiting]
          simp [lone]
        · rw [Function.update_of_ne hkk]
          cases s.outcome k <;> simp [lone, Ne.symm hkk]
      · rw [h.drop_entry_settled hk₀ hwaiting, remove_callback_of_none (h.no_entry hk₀ hwaiting)]
        refine ⟨h, fun k id owner _ => ?_⟩
        dsimp only
        cases hout : s.outcome k with
        | waiting =>
          have hne : k₀ ≠ k := by
            rintro rfl
            exact hwaiting hout
          simp [lone, hne]
        | _ => rfl
    · cases hstep
  | notify_client_response sender id₀ result =>
    obtain rfl := Option.some.inj hstep
    obtain ⟨hreg, hout⟩ := h.told sender id₀ (o := .answered result) (by simp)
    refine ⟨hreg, fun k id owner hk => ?_⟩
    obtain ⟨hmine, hother⟩ := hout k id owner hk
    cases hwas : s.outcome k with
    | waiting =>
      dsimp only [lone]
      split_ifs with hmatch
      · exact hmine hwas hmatch
      · exact (hother fun _ => hmatch).trans hwas
    | _ => exact (hother (by simp [hwas])).trans hwas
  | notify_client_error sender id₀ =>
    obtain rfl := Option.some.inj hstep
    obtain ⟨hreg, hout⟩ := h.told sender id₀ (o := .dropped) (by simp)
    refine ⟨hreg, fun k id owner hk => ?_⟩
    obtain ⟨hmine, hother⟩ := hout k id owner hk
    cases hwas : s.outcome k with
    | waiting =>
      dsimp only [lone]
      split_ifs with hmatch
      · exact hmine hwas hmatch
      · exact (hother fun _ => hmatch).trans hwas
    | _ => exact (hother (by simp [hwas])).trans hwas
  | clear_callbacks_for_connection c =>
    obtain rfl := Option.some.inj hstep
    exact ⟨h.clear c, fun k id owner hk => h.drop_connection_eq hk c⟩

/-! ## Runs -/

/-- A call keeps its id and its connection. -/
theorem step_requests {a : CallbackAction K V} (hstep : s.step a = some t) {r}
    (hk : t.requests k = some r) :
    s.requests k = some r ∨ s.requests k = none ∧ ∃ c, a = .take_id k c := by
  cases a with
  | take_id k₀ connection_id =>
    simp only [Callbacks.step] at hstep
    split at hstep
    · next hnone =>
      obtain rfl := Option.some.inj hstep
      dsimp only at hk
      by_cases hkk : k = k₀
      · subst hkk
        exact .inr ⟨hnone, _, rfl⟩
      · rw [Function.update_of_ne hkk] at hk
        exact .inl hk
    · cases hstep
  | register k₀ =>
    simp only [Callbacks.step] at hstep
    split at hstep
    · obtain rfl := Option.some.inj hstep
      exact .inl hk
    · cases hstep
  | queue_failed k₀ =>
    simp only [Callbacks.step] at hstep
    split at hstep
    · cases hstep
    · obtain rfl := Option.some.inj hstep
      exact .inl hk
    · cases hstep
  | _ =>
    obtain rfl := Option.some.inj hstep
    exact .inl hk

/-- Before its call takes an id, nothing happens to a request. -/
theorem lone_unregistered {a : CallbackAction K V} (ha : a ≠ .register k) :
    lone k id owner .unregistered a = (.unregistered : Outcome V) := by
  cases a with
  | register k' =>
    have hne : k' ≠ k := by
      rintro rfl
      exact ha rfl
    simp [lone, hne]
  | _ => rfl

/-- The registered request of a call without an id is one that nothing has happened to. -/
theorem requests_none {a : CallbackAction K V} (hstep : s.step a = some t)
    (hk : t.requests k = none) : s.requests k = none ∧ a ≠ .register k := by
  cases a with
  | take_id k₀ connection_id =>
    refine ⟨?_, by simp⟩
    simp only [Callbacks.step] at hstep
    split at hstep
    · obtain rfl := Option.some.inj hstep
      dsimp only at hk
      by_cases hkk : k = k₀
      · rw [hkk, Function.update_self] at hk
        cases hk
      · rwa [Function.update_of_ne hkk] at hk
    · cases hstep
  | register k₀ =>
    simp only [Callbacks.step] at hstep
    split at hstep
    · next id owner hk₀ hout =>
      obtain rfl := Option.some.inj hstep
      refine ⟨hk, fun heq => ?_⟩
      obtain rfl := CallbackAction.register.inj heq
      rw [hk₀] at hk
      cases hk
    · cases hstep
  | queue_failed k₀ =>
    refine ⟨?_, by simp⟩
    simp only [Callbacks.step] at hstep
    split at hstep
    · cases hstep
    · obtain rfl := Option.some.inj hstep
      exact hk
    · cases hstep
  | _ =>
    obtain rfl := Option.some.inj hstep
    exact ⟨hk, by simp⟩

/-- By induction on the run, from its end. -/
theorem registered_run {actions : List (CallbackAction K V)}
    (hrun : actions.foldlM step start = some s) :
    Registered s ∧
      (∀ k, s.requests k = none → ∀ id owner,
        actions.foldl (lone k id owner) .unregistered = .unregistered) ∧
      ∀ k id owner, s.requests k = some (id, owner) →
        s.outcome k = actions.foldl (lone k id owner) .unregistered := by
  induction actions using List.reverseRecOn generalizing s with
  | nil =>
    obtain rfl : start = s := by simpa using hrun
    exact ⟨registered_start, fun _ _ _ _ => rfl, fun _ _ _ hk => by cases hk⟩
  | append_singleton actions a ih =>
    rw [List.foldlM_append] at hrun
    obtain ⟨s₁, hs₁, hlast⟩ := Option.bind_eq_some_iff.mp hrun
    have hstep : s₁.step a = some s := by simpa using hlast
    obtain ⟨hreg, hnone, hsome⟩ := ih hs₁
    obtain ⟨hreg', hout⟩ := hreg.step hstep
    refine ⟨hreg', fun k hk id owner => ?_, fun k id owner hk => ?_⟩
    · obtain ⟨hk', ha⟩ := requests_none hstep hk
      rw [List.foldl_append, hnone k hk' id owner]
      exact lone_unregistered ha
    · rw [hout k id owner hk, List.foldl_append]
      rcases step_requests hstep hk with hk' | ⟨hk', -⟩
      · rw [hsome k id owner hk']
        rfl
      · rw [hreg.unnumbered k hk', hnone k hk' id owner]
        rfl

end steps

end Callbacks

/-- For any number of calls and every order of their steps with the answers of clients and the ends
of connections: calls have ids of their own, and what the receiver of a call gets is what it gets
when nothing but this call and the messages exist. -/
theorem each_request_as_if_alone {K V : Type} [DecidableEq K]
    (actions : List (CallbackAction K V)) (s : Callbacks K V)
    (hrun : actions.foldlM Callbacks.step Callbacks.start = some s) (k : K) (id : RequestId)
    (owner : Option ConnectionId) (hk : s.requests k = some (id, owner)) :
    (∀ k' owner', s.requests k' = some (id, owner') → k' = k) ∧
      s.outcome k = actions.foldl (lone k id owner) .unregistered := by
  obtain ⟨hreg, -, hout⟩ := Callbacks.registered_run hrun
  exact ⟨fun k' owner' hk' => hreg.distinct _ _ _ _ _ hk' hk, hout k id owner hk⟩

/-- Two calls for two clients. The second client answers both, and only its own answer counts. -/
def crossed : List (CallbackAction Bool Nat) :=
  [.take_id false (some 1), .take_id true (some 2), .register true, .register false,
    .notify_client_response (some 2) (.Integer 0) 7,
    .notify_client_response (some 2) (.Integer 1) 8,
    .clear_callbacks_for_connection 1, .notify_client_response (some 1) (.Integer 0) 9]

theorem crossed_answers :
    ∃ s, crossed.foldlM Callbacks.step Callbacks.start = some s ∧
      s.outcome true = .answered 8 ∧ s.outcome false = .dropped := by
  obtain ⟨s, hs⟩ : ∃ s, crossed.foldlM Callbacks.step Callbacks.start = some s := ⟨_, rfl⟩
  have htrue := (each_request_as_if_alone crossed s hs true (.Integer 1) (some 2)
    (by obtain rfl := Option.some.inj hs; rfl)).2
  have hfalse := (each_request_as_if_alone crossed s hs false (.Integer 0) (some 1)
    (by obtain rfl := Option.some.inj hs; rfl)).2
  refine ⟨s, hs, htrue.trans ?_, hfalse.trans ?_⟩
  · decide
  · decide

end Ecode.app_server
