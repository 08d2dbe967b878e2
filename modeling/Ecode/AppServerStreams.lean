-- What the clients of the app server see, for every order of the steps of the processor, of the
-- tasks that serve requests, of the router and of the readers (app-server/src/lib.rs,
-- transport.rs).
import Ecode.AppServer

namespace Ecode.app_server

open runs repeats

variable {V : Type}

/-! ## What a client should see -/

/-- Whom a message is for, where it is for one connection. -/
def Sent.addressee : Sent V → Option ConnectionId
  | send_response c _ _ => some c
  | send_error c _ _ => some c
  | send_request owner _ _ _ => owner
  | send_notification _ _ => none
  | send_notification_to_connection c _ _ => some c

/-- A message as the client `c` should see it: an answer under the id that the client chose. -/
def Sent.for_client (asked : List (ConnectionId × RequestId)) (c : ConnectionId) :
    Sent V → Option (OutgoingMessage V)
  | send_response c' n result =>
    if c' = c then asked[n]?.map fun r => .Response r.2 result else none
  | send_error c' n error => if c' = c then asked[n]?.map fun r => .Error r.2 error else none
  | send_request owner id method params =>
    if owner.all (· == c) then some (.Request id method params) else none
  | send_notification method params => some (.Notification method params)
  | send_notification_to_connection c' method params =>
    if c' = c then some (.Notification method params) else none

/-- All that was sent for the client `c`, in the order in which it was sent. Only the first answer
to a request counts. -/
def client_stream (asked : List (ConnectionId × RequestId)) (sent : List (Sent V))
    (c : ConnectionId) : List (OutgoingMessage V) :=
  (firsts Sent.answers sent).filterMap (Sent.for_client asked c)

/-! ## Internal ids -/

theorem internal_request_id_inj {c c' : ConnectionId} {n n' : Nat}
    (h : internal_request_id c n = internal_request_id c' n') : c = c' ∧ n = n' := by
  have hdigits : ∀ k, ∀ ch ∈ Text.ofNat k, ch ≠ ':' := by
    rintro k ch hch rfl
    exact absurd (Nat.isDigit_of_mem_toDigits (by decide) (by decide) hch) (by decide)
  have hofNat : Function.Injective Text.ofNat := by
    intro k k' hk
    have hvalue : Nat.ofDigitChars 10 (Text.ofNat k) 0 = k := Nat.ofDigitChars_ten_toDigits
    rw [hk] at hvalue
    exact hvalue.symm.trans Nat.ofDigitChars_ten_toDigits
  have htexts : Text.ofNat c ++ ':' :: Text.ofNat n = Text.ofNat c' ++ ':' :: Text.ofNat n' := by
    simpa [internal_request_id] using h
  have hbefore : ∀ k l, ((Text.ofNat k ++ ':' :: Text.ofNat l).takeWhile fun ch => ch != ':') =
      Text.ofNat k := by
    intro k l
    rw [List.takeWhile_append_of_pos (fun ch hch => by simpa using hdigits k ch hch)]
    simp
  have hfirst : Text.ofNat c = Text.ofNat c' := by
    rw [← hbefore c n, htexts, hbefore]
  rw [hfirst] at htexts
  refine ⟨hofNat hfirst, hofNat ?_⟩
  simpa using htexts

theorem is_internal_internal_request_id (c : ConnectionId) (n : Nat) :
    is_internal_request_id (internal_request_id c n) = true := by
  simp [is_internal_request_id, internal_request_id, Text.starts_with]

/-! ## The stream grows with what is sent -/

section streams

variable {asked : List (ConnectionId × RequestId)} {sent : List (Sent V)} {m : Sent V}
  {c : ConnectionId}

theorem client_stream_new (h : ¬ Repeated Sent.answers sent m) :
    client_stream asked (sent ++ [m]) c = client_stream asked sent c ++ (m.for_client asked c).toList := by
  unfold client_stream
  rw [firsts_append_new h, List.filterMap_append]
  cases hm : m.for_client asked c <;> simp [hm]

theorem client_stream_mono {sent' : List (Sent V)} (h : sent <+: sent') :
    client_stream asked sent c <+: client_stream asked sent' c :=
  (firsts_mono h).filterMap _

theorem for_client_append (h : ∀ k ∈ m.answers, ∃ r ∈ asked[k.2]?, r.1 = k.1)
    (r : ConnectionId × RequestId) : m.for_client (asked ++ [r]) c = m.for_client asked c := by
  have hlt : ∀ n : Nat, (∃ r ∈ asked[n]?, r.1 = c) → (asked ++ [r])[n]? = asked[n]? := by
    rintro n ⟨r', hr', -⟩
    exact List.getElem?_append_left (List.getElem?_eq_some_iff.mp hr').1
  cases m with
  | send_response c' n result =>
    dsimp only [Sent.for_client]
    split_ifs with hc
    · subst hc
      rw [hlt n (h _ rfl)]
    · rfl
  | send_error c' n error =>
    dsimp only [Sent.for_client]
    split_ifs with hc
    · subst hc
      rw [hlt n (h _ rfl)]
    · rfl
  | _ => rfl

/-- A later request changes nothing in what was sent before. -/
theorem client_stream_asked
    (h : ∀ m ∈ sent, ∀ k ∈ m.answers, ∃ r ∈ asked[k.2]?, r.1 = k.1)
    (r : ConnectionId × RequestId) :
    client_stream (asked ++ [r]) sent c = client_stream asked sent c := by
  unfold client_stream
  refine List.filterMap_congr fun m hm => ?_
  exact for_client_append (h m ((firsts_sublist sent).subset hm)) r

end streams

/-! ## Rewriting -/

/-- The message under the id of an answer. -/
def Sent.message (id : RequestId) : Sent V → OutgoingMessage V
  | send_response _ _ result => .Response id result
  | send_error _ _ error => .Error id error
  | send_request _ id method params => .Request id method params
  | send_notification method params => .Notification method params
  | send_notification_to_connection _ method params => .Notification method params

theorem for_client_answer {asked : List (ConnectionId × RequestId)} {m : Sent V} {c : ConnectionId}
    {n : Nat} (hm : m.answers = some (c, n)) {r : ConnectionId × RequestId}
    (hr : asked[n]? = some r) : m.for_client asked c = some (m.message r.2) := by
  cases m <;> cases hm
  all_goals simp [Sent.for_client, Sent.message, hr]

theorem rewrite_answer {m : Sent V} {k : ConnectionId × Nat} (hm : m.answers = some k)
    (routes : RequestRoutes) :
    rewrite_response_routing m.envelope routes =
      match keyed.get Prod.fst routes (internal_request_id k.1 k.2) with
      | some (_, route) =>
        (some (.ToConnection route.connection_id (m.message route.original_request_id)),
          keyed.erase Prod.fst routes (internal_request_id k.1 k.2))
      | none => (none, routes) := by
  cases m with
  | send_response c n result =>
    obtain rfl := Option.some.inj hm
    unfold Sent.envelope rewrite_response_routing
    dsimp only
    rw [is_internal_internal_request_id]
    rfl
  | send_error c n error =>
    obtain rfl := Option.some.inj hm
    unfold Sent.envelope rewrite_response_routing
    dsimp only
    rw [is_internal_internal_request_id]
    rfl
  | _ => cases hm

theorem rewrite_other {m : Sent V} (hm : m.answers = none) (routes : RequestRoutes) :
    rewrite_response_routing m.envelope routes = (some m.envelope, routes) := by
  cases m with
  | send_response c n result => cases hm
  | send_error c n error => cases hm
  | send_request owner id method params => cases owner <;> rfl
  | _ => rfl

/-! ## The invariant -/

namespace AppServer

variable {s t : AppServer V} {c : ConnectionId}

/-- What the router holds for a connection. -/
def held (s : AppServer V) (c : ConnectionId) : List (OutgoingMessage V) :=
  match s.routing with
  | some r => if c ∈ r.to_check ++ r.targets then [r.message] else []
  | none => []

/-- What the router wrote to a connection. -/
def routed (s : AppServer V) (c : ConnectionId) : List (OutgoingMessage V) :=
  (s.written c).filterMap Delivery.message?

/-- A route is that of a request without an answer among those received. -/
structure Routed (s : AppServer V) : Prop where
  routes : ∀ e ∈ s.request_routes, ∃ n, e.1 = internal_request_id e.2.connection_id n ∧
    s.asked[n]? = some (e.2.connection_id, e.2.original_request_id) ∧
    ∀ m ∈ s.sent.take s.received, m.answers ≠ some (e.2.connection_id, n)
  sent_asked : ∀ m ∈ s.sent, ∀ k ∈ m.answers, ∃ r ∈ s.asked[k.2]?, r.1 = k.1
  received_le : s.received ≤ s.sent.length
  outbound : s.outbound_connections.Nodup
  once : ∀ r ∈ s.routing, (r.to_check ++ r.targets).Nodup
  stream : ∀ c, (s.routed c ++ s.held c).Sublist
    (client_stream s.asked (s.sent.take s.received) c)

theorem routed_start (stdio : Bool) : Routed (start stdio : AppServer V) where
  routes := by simp [start]
  sent_asked := by simp [start]
  received_le := Nat.le_refl 0
  outbound := List.nodup_nil
  once := by simp [start]
  stream _ := List.nil_sublist _

theorem held_idle (h : s.router_idle) (c : ConnectionId) : s.held c = [] := by
  unfold held
  cases hr : s.routing with
  | none => rfl
  | some r =>
    obtain ⟨hcheck, htargets⟩ := h r hr
    simp [hcheck, htargets]

theorem received_snoc {m : Sent V} (hm : s.sent[s.received]? = some m) :
    s.sent.take (s.received + 1) = s.sent.take s.received ++ [m] := by
  rw [List.take_add_one, hm]
  rfl

/-- An answer that the router receives now finds a route if it is the first to its request and
the route was not removed; then it goes to the client that asked. -/
theorem Routed.answer_cases (h : Routed s) {m : Sent V} {k : ConnectionId × Nat}
    (hk : m.answers = some k) :
    (∃ id, s.asked[k.2]? = some (k.1, id) ∧
      (internal_request_id k.1 k.2, ⟨k.1, id⟩) ∈ s.request_routes ∧
      ¬ Repeated Sent.answers (s.sent.take s.received) m ∧
      rewrite_response_routing m.envelope s.request_routes =
        (some (.ToConnection k.1 (m.message id)),
          keyed.erase Prod.fst s.request_routes (internal_request_id k.1 k.2))) ∨
    ((∀ e ∈ s.request_routes, e.1 ≠ internal_request_id k.1 k.2) ∧
      rewrite_response_routing m.envelope s.request_routes = (none, s.request_routes)) := by
  rw [rewrite_answer hk]
  cases hroute : keyed.get Prod.fst s.request_routes (internal_request_id k.1 k.2) with
  | none => exact .inr ⟨keyed.get_eq_none.mp hroute, rfl⟩
  | some e =>
    obtain ⟨id, c, original⟩ := e
    have hmem := keyed.mem_of_get hroute
    have hkey := keyed.key_of_get hroute
    obtain ⟨n, hn, hasked, hnew⟩ := h.routes _ hmem
    dsimp only at hkey hn hasked hnew ⊢
    obtain ⟨hc, hkn⟩ := internal_request_id_inj (hkey.symm.trans hn)
    subst hc hkn hkey
    refine .inl ⟨original, hasked, hmem, ?_, rfl⟩
    rw [repeated_iff hk]
    rintro ⟨m', hm', hk'⟩
    exact hnew m' hm' hk'

/-- What the router takes up goes to those whom it is for. -/
theorem Routed.held_received (h : Routed s) {m : Sent V} {order : List ConnectionId}
    {c : ConnectionId} {r : Routing V}
    (hr : routing_of order (rewrite_response_routing m.envelope s.request_routes).1 = some r)
    (hc : c ∈ r.to_check ++ r.targets) :
    ¬ Repeated Sent.answers (s.sent.take s.received) m ∧
      m.for_client s.asked c = some r.message ∧ (r.broadcast = false → m.addressee = some c) := by
  cases hk : m.answers with
  | some k =>
    rcases h.answer_cases hk with ⟨id, hasked, -, hnew, hrewrite⟩ | ⟨-, hrewrite⟩
    · rw [hrewrite] at hr
      obtain rfl := Option.some.inj hr
      obtain rfl : c = k.1 := by simpa using hc
      refine ⟨hnew, for_client_answer hk hasked, fun _ => ?_⟩
      cases m <;> cases hk <;> rfl
    · rw [hrewrite] at hr
      cases hr
  | none =>
    refine ⟨not_repeated_of_none hk, ?_⟩
    rw [rewrite_other hk] at hr
    cases m with
    | send_response c n result => cases hk
    | send_error c n error => cases hk
    | send_request owner id method params =>
      cases owner with
      | none =>
        obtain rfl := Option.some.inj hr
        simp [Sent.for_client]
      | some owner =>
        obtain rfl := Option.some.inj hr
        obtain rfl : c = owner := by simpa using hc
        simp [Sent.for_client, Sent.addressee]
    | send_notification method params =>
      obtain rfl := Option.some.inj hr
      simp [Sent.for_client]
    | send_notification_to_connection owner method params =>
      obtain rfl := Option.some.inj hr
      obtain rfl : c = owner := by simpa using hc
      simp [Sent.for_client, Sent.addressee]

theorem routing_of_nodup {order : List ConnectionId} (ho : order.Nodup)
    (e : Option (OutgoingEnvelope V)) : ∀ r ∈ routing_of order e, (r.to_check ++ r.targets).Nodup := by
  intro r hr
  match e, hr with
  | some (.ToConnection c message), hr =>
    obtain rfl := Option.some.inj hr
    simp
  | some (.Broadcast message), hr =>
    obtain rfl := Option.some.inj hr
    simpa using ho

theorem Routed.receive (h : Routed s) (hidle : s.router_idle) {order : List ConnectionId}
    (horder : order.Perm s.outbound_connections) {m : Sent V}
    (hm : s.sent[s.received]? = some m) :
    Routed { s with
      received := s.received + 1
      request_routes := (rewrite_response_routing m.envelope s.request_routes).2
      routing := routing_of order (rewrite_response_routing m.envelope s.request_routes).1 } where
  routes e he := by
    dsimp only at he ⊢
    rw [received_snoc hm]
    have hold : e ∈ s.request_routes ∧ ∀ k ∈ m.answers, e.1 ≠ internal_request_id k.1 k.2 := by
      cases hk : m.answers with
      | none =>
        rw [rewrite_other hk] at he
        exact ⟨he, by simp⟩
      | some k =>
        rcases h.answer_cases hk with ⟨id, -, -, -, hrewrite⟩ | ⟨hnone, hrewrite⟩
        · rw [hrewrite, keyed.mem_erase] at he
          exact ⟨he.1, by simpa using he.2⟩
        · rw [hrewrite] at he
          exact ⟨he, by simpa using hnone e he⟩
    obtain ⟨n, hn, hasked, hnew⟩ := h.routes e hold.1
    refine ⟨n, hn, hasked, fun m' hm' => ?_⟩
    rcases List.mem_append.mp hm' with hbefore | hlast
    · exact hnew m' hbefore
    · obtain rfl := List.mem_singleton.mp hlast
      intro hk
      exact hold.2 _ hk hn
  sent_asked := h.sent_asked
  received_le := (List.getElem?_eq_some_iff.mp hm).1
  outbound := h.outbound
  once := routing_of_nodup (horder.nodup_iff.mpr h.outbound) _
  stream c := by
    have hbefore := h.stream c
    rw [held_idle hidle, List.append_nil] at hbefore
    change (s.routed c ++ held _ c).Sublist (client_stream s.asked (s.sent.take (s.received + 1)) c)
    rw [received_snoc hm]
    unfold held
    dsimp only
    cases hr : routing_of order (rewrite_response_routing m.envelope s.request_routes).1 with
    | none =>
      rw [List.append_nil]
      exact hbefore.trans (client_stream_mono (List.prefix_append _ _)).sublist
    | some r =>
      dsimp only
      split_ifs with hc
      · obtain ⟨hnew, hfor, -⟩ := h.held_received hr hc
        rw [client_stream_new hnew, hfor]
        exact hbefore.append (List.Sublist.refl _)
      · rw [List.append_nil]
        exact hbefore.trans (client_stream_mono (List.prefix_append _ _)).sublist

/-- Steps that leave the router and what it writes alone. -/
theorem Routed.other (h : Routed s) (hrouting : t.routing = s.routing)
    (hrouted : ∀ c, t.routed c = s.routed c) (hreceived : t.received = s.received)
    (hasked : t.asked = s.asked) (hsent : t.sent = s.sent)
    (hroutes : t.request_routes ⊆ s.request_routes) (houtbound : t.outbound_connections.Nodup) :
    Routed t where
  routes e he := by
    rw [hasked, hsent, hreceived]
    exact h.routes e (hroutes he)
  sent_asked := by
    rw [hasked, hsent]
    exact h.sent_asked
  received_le := by
    rw [hreceived, hsent]
    exact h.received_le
  outbound := houtbound
  once := by
    rw [hrouting]
    exact h.once
  stream c := by
    unfold held
    rw [hrouted, hasked, hsent, hreceived, hrouting]
    exact h.stream c

theorem Routed.request (h : Routed s) (c : ConnectionId) (id : RequestId) :
    Routed { s with
      asked := s.asked ++ [(c, id)]
      request_routes := keyed.insert Prod.fst s.request_routes
        (internal_request_id c s.asked.length, ⟨c, id⟩) } where
  routes e he := by
    dsimp only at he ⊢
    rcases keyed.mem_insert.mp he with rfl | ⟨hold, -⟩
    · refine ⟨s.asked.length, rfl, by simp, fun m hm hk => ?_⟩
      obtain ⟨r, hr, -⟩ := h.sent_asked m (List.mem_of_mem_take hm) _ hk
      obtain ⟨hlt, -⟩ := List.getElem?_eq_some_iff.mp hr
      exact absurd hlt (lt_irrefl _)
    · obtain ⟨n, hn, hasked, hnew⟩ := h.routes e hold
      refine ⟨n, hn, ?_, hnew⟩
      rw [List.getElem?_append_left (List.getElem?_eq_some_iff.mp hasked).1]
      exact hasked
  sent_asked m hm k hk := by
    obtain ⟨r, hr, hc⟩ := h.sent_asked m hm k hk
    refine ⟨r, ?_, hc⟩
    rw [List.getElem?_append_left (List.getElem?_eq_some_iff.mp hr).1]
    exact hr
  received_le := h.received_le
  outbound := h.outbound
  once := h.once
  stream c' := by
    have hasked : ∀ m ∈ s.sent.take s.received, ∀ k ∈ m.answers, ∃ r ∈ s.asked[k.2]?, r.1 = k.1 :=
      fun m hm => h.sent_asked m (List.mem_of_mem_take hm)
    dsimp only
    rw [client_stream_asked hasked]
    exact h.stream c'

theorem Routed.send (h : Routed s) {m : Sent V} (hm : s.may_send m) :
    Routed { s with sent := s.sent ++ [m] } where
  routes e he := by
    dsimp only
    rw [List.take_append_of_le_length h.received_le]
    exact h.routes e he
  sent_asked m' hm' := by
    rcases List.mem_append.mp hm' with hold | hnew
    · exact h.sent_asked m' hold
    · obtain rfl := List.mem_singleton.mp hnew
      rintro k hk
      cases m' <;> cases hk
      all_goals exact hm
  received_le := by
    rw [List.length_append]
    exact h.received_le.trans (Nat.le_add_right _ _)
  outbound := h.outbound
  once := h.once
  stream c := by
    dsimp only
    rw [List.take_append_of_le_length h.received_le]
    exact h.stream c

theorem ite_sublist {p q : Prop} [Decidable p] [Decidable q] (h : p → q)
    (m : OutgoingMessage V) :
    (if p then [m] else []).Sublist (if q then [m] else []) := by
  by_cases hp : p
  · rw [if_pos hp, if_pos (h hp)]
  · rw [if_neg hp]
    exact List.nil_sublist _

theorem Routed.check_target (h : Routed s) {message : OutgoingMessage V} {broadcast : Bool}
    {to_check targets : List ConnectionId}
    (hr : s.routing = some ⟨message, broadcast, c :: to_check, targets⟩) (found : Bool) :
    Routed { s with
      routing := some ⟨message, broadcast, to_check,
        if found then targets ++ [c] else targets⟩ } where
  routes := h.routes
  sent_asked := h.sent_asked
  received_le := h.received_le
  outbound := h.outbound
  once := by
    have honce := h.once _ hr
    rintro r hr'
    obtain rfl := Option.some.inj hr'
    cases found with
    | true =>
      have hperm : (to_check ++ (targets ++ [c])).Perm (c :: to_check ++ targets) := by
        rw [← List.append_assoc]
        exact List.perm_append_singleton c (to_check ++ targets)
      exact hperm.nodup_iff.mpr honce
    | false => exact (List.nodup_cons.mp honce).2
  stream c' := by
    refine List.Sublist.trans (List.Sublist.append_left ?_ _) (h.stream c')
    unfold held
    rw [hr]
    refine ite_sublist (fun hc' => ?_) message
    rcases List.mem_append.mp hc' with hcheck | htargets
    · exact List.mem_append_left _ (List.mem_cons_of_mem c hcheck)
    · cases found with
      | true =>
        rcases List.mem_append.mp htargets with hold | hnew
        · exact List.mem_append_right _ hold
        · obtain rfl := List.mem_singleton.mp hnew
          exact List.mem_append_left _ List.mem_cons_self
      | false => exact List.mem_append_right _ htargets

theorem routed_deliver (d : Delivery V) (c' : ConnectionId) :
    ((s.deliver c d) c').filterMap Delivery.message? =
      s.routed c' ++ if c' = c then d.message?.toList else [] := by
  unfold deliver routed
  by_cases hc : c' = c
  · subst hc
    rw [Function.update_self, List.filterMap_append, if_pos rfl]
    cases hd : d.message? <;> simp [hd]
  · rw [Function.update_of_ne hc, if_neg hc, List.append_nil]

/-- The first target has the message, or is left out. -/
theorem Routed.write_target (h : Routed s) {message : OutgoingMessage V} {broadcast : Bool}
    {targets : List ConnectionId} (hr : s.routing = some ⟨message, broadcast, [], c :: targets⟩)
    {written : ConnectionId → List (Delivery V)}
    (hwritten : written = s.written ∨ written = s.deliver c (.routed message))
    {outbound : List ConnectionId} (houtbound : outbound.Nodup) :
    Routed { s with
      routing := some ⟨message, broadcast, [], targets⟩
      written := written
      outbound_connections := outbound } where
  routes := h.routes
  sent_asked := h.sent_asked
  received_le := h.received_le
  outbound := houtbound
  once := by
    rintro r hr'
    obtain rfl := Option.some.inj hr'
    exact (List.nodup_cons.mp (h.once _ hr)).2
  stream c' := by
    have hbefore := h.stream c'
    obtain ⟨hnot, -⟩ := List.nodup_cons.mp (h.once _ hr)
    unfold held at hbefore
    rw [hr] at hbefore
    dsimp only [List.nil_append] at hbefore
    change ((written c').filterMap Delivery.message? ++ if c' ∈ targets then [message] else
      []).Sublist (client_stream s.asked (s.sent.take s.received) c')
    by_cases hc : c' = c
    · subst hc
      rw [if_neg hnot, List.append_nil]
      rw [if_pos List.mem_cons_self] at hbefore
      rcases hwritten with rfl | rfl
      · exact (List.sublist_append_left _ _).trans hbefore
      · rw [routed_deliver, if_pos rfl]
        exact hbefore
    · have hsame : (written c').filterMap Delivery.message? = s.routed c' := by
        rcases hwritten with rfl | rfl
        · rfl
        · rw [routed_deliver, if_neg hc, List.append_nil]
      rw [hsame]
      simpa [hc] using hbefore

/-- A step of the server keeps the streams of all clients. -/
theorem Routed.step (h : Routed s) {a : ServerAction V} (hstep : s.step a = some t) :
    Routed t := by
  cases a with
  | connection_opened c =>
    obtain ⟨-, hstep⟩ := Option.ite_none_right_eq_some.mp hstep
    obtain rfl := Option.some.inj hstep
    exact h.other rfl (fun _ => rfl) rfl rfl rfl (List.Subset.refl _) h.outbound
  | connection_closed c =>
    obtain ⟨-, hstep⟩ := Option.ite_none_right_eq_some.mp hstep
    obtain rfl := Option.some.inj hstep
    exact h.other rfl (fun _ => rfl) rfl rfl rfl (List.Subset.refl _) h.outbound
  | remove_request_routes =>
    simp only [AppServer.step] at hstep
    split at hstep
    · obtain rfl := Option.some.inj hstep
      exact h.other rfl (fun _ => rfl) rfl rfl rfl List.filter_sublist.subset h.outbound
    · cases hstep
  | request c id =>
    obtain ⟨-, hstep⟩ := Option.ite_none_right_eq_some.mp hstep
    obtain rfl := Option.some.inj hstep
    exact h.request c id
  | process_initialization c methods =>
    obtain ⟨-, hstep⟩ := Option.ite_none_right_eq_some.mp hstep
    obtain rfl := Option.some.inj hstep
    exact h.other rfl (fun _ => rfl) rfl rfl rfl (List.Subset.refl _) h.outbound
  | store_initialized =>
    simp only [AppServer.step] at hstep
    split at hstep
    · obtain rfl := Option.some.inj hstep
      exact h.other rfl (fun _ => rfl) rfl rfl rfl (List.Subset.refl _) h.outbound
    · cases hstep
  | send m =>
    obtain ⟨hm, hstep⟩ := Option.ite_none_right_eq_some.mp hstep
    obtain rfl := Option.some.inj hstep
    exact h.send hm
  | control_event =>
    obtain ⟨-, hstep⟩ := Option.ite_none_right_eq_some.mp hstep
    split at hstep
    · cases hstep
    · obtain rfl := Option.some.inj hstep
      exact h.other rfl (fun _ => rfl) rfl rfl rfl (List.Subset.refl _) h.outbound.insert
    · obtain rfl := Option.some.inj hstep
      exact h.other rfl (fun _ => rfl) rfl rfl rfl (List.Subset.refl _) (h.outbound.filter _)
  | receive order =>
    obtain ⟨⟨hidle, horder⟩, hstep⟩ := Option.ite_none_right_eq_some.mp hstep
    split at hstep
    · cases hstep
    · next m hm =>
      obtain rfl := Option.some.inj hstep
      exact h.receive hidle horder hm
  | check_target =>
    simp only [AppServer.step] at hstep
    split at hstep
    · next hr =>
      obtain rfl := Option.some.inj hstep
      exact h.check_target hr _
    · cases hstep
  | write_target ok =>
    simp only [AppServer.step] at hstep
    split at hstep
    · next hr =>
      split_ifs at hstep
      · obtain rfl := Option.some.inj hstep
        exact h.write_target hr (.inr rfl) h.outbound
      · obtain rfl := Option.some.inj hstep
        exact h.write_target hr (.inl rfl) (h.outbound.filter _)
    · cases hstep
  | overload c id =>
    obtain rfl := Option.some.inj hstep
    refine h.other rfl (fun c' => ?_) rfl rfl rfl (List.Subset.refl _) h.outbound
    unfold routed
    dsimp only
    rw [routed_deliver]
    simp [Delivery.message?, routed]

theorem routed_run {stdio : Bool} {actions : List (ServerAction V)}
    (hrun : actions.foldlM AppServer.step (.start stdio) = some s) : Routed s :=
  run_invariant (fun _ _ _ hs hstep => Routed.step hs hstep) (routed_start stdio) hrun

end AppServer

/-! ## Answers -/

/-- The message answers the request that a client made under `id`. -/
def OutgoingMessage.is_answer (id : RequestId) : OutgoingMessage V → Bool
  | .Response id' _ => id' == id
  | .Error id' _ => id' == id
  | _ => false

theorem answer_for_client {asked : List (ConnectionId × RequestId)} {c : ConnectionId}
    {id : RequestId} {m : Sent V} {message : OutgoingMessage V}
    (hm : m.for_client asked c = some message) (hid : message.is_answer id = true) :
    ∃ n, m.answers = some (c, n) ∧ ∃ r ∈ asked[n]?, r.2 = id := by
  cases m with
  | send_response c' n result =>
    simp only [Sent.for_client, Option.ite_none_right_eq_some] at hm
    obtain ⟨rfl, hm⟩ := hm
    obtain ⟨r, hr, rfl⟩ := Option.map_eq_some_iff.mp hm
    exact ⟨n, rfl, r, hr, by simpa [OutgoingMessage.is_answer] using hid⟩
  | send_error c' n error =>
    simp only [Sent.for_client, Option.ite_none_right_eq_some] at hm
    obtain ⟨rfl, hm⟩ := hm
    obtain ⟨r, hr, rfl⟩ := Option.map_eq_some_iff.mp hm
    exact ⟨n, rfl, r, hr, by simpa [OutgoingMessage.is_answer] using hid⟩
  | send_request owner id' method params =>
    simp only [Sent.for_client, Option.ite_none_right_eq_some] at hm
    obtain ⟨-, hm⟩ := hm
    obtain rfl := Option.some.inj hm
    cases hid
  | send_notification method params =>
    obtain rfl := Option.some.inj hm
    cases hid
  | send_notification_to_connection c' method params =>
    simp only [Sent.for_client, Option.ite_none_right_eq_some] at hm
    obtain ⟨-, hm⟩ := hm
    obtain rfl := Option.some.inj hm
    cases hid

/-- A stream holds no more answers under an id than there were requests under it. -/
theorem answers_le_requests {asked : List (ConnectionId × RequestId)} {sent : List (Sent V)}
    (hasked : ∀ m ∈ sent, ∀ k ∈ m.answers, ∃ r ∈ asked[k.2]?, r.1 = k.1) (c : ConnectionId)
    (id : RequestId) :
    (client_stream asked sent c).countP (OutgoingMessage.is_answer id) ≤ asked.count (c, id) := by
  let counts (m : Sent V) : Bool :=
    ((m.for_client asked c).map (OutgoingMessage.is_answer id)).getD false
  let answered := ((firsts Sent.answers sent).filter counts).filterMap Sent.answers
  have hanswered : ∀ m ∈ (firsts Sent.answers sent).filter counts,
      ∃ n, m.answers = some (c, n) ∧ asked[n]? = some (c, id) := by
    intro m hm
    obtain ⟨hmem, hcounts⟩ := List.mem_filter.mp hm
    cases hfor : m.for_client asked c with
    | none => simp [counts, hfor] at hcounts
    | some message =>
      obtain ⟨n, hn, r, hr, rfl⟩ :=
        answer_for_client hfor (by simpa [counts, hfor] using hcounts)
      obtain ⟨r', hr', hc⟩ := hasked m ((firsts_sublist sent).subset hmem) _ hn
      obtain rfl := Option.some.inj (hr.symm.trans hr')
      obtain ⟨c', id'⟩ := r
      obtain rfl : c' = c := hc
      exact ⟨n, hn, hr⟩
  have hmem : ∀ k ∈ answered, k.1 = c ∧ asked[k.2]? = some (c, id) := by
    intro k hk
    obtain ⟨m, hm, hmk⟩ := List.mem_filterMap.mp hk
    obtain ⟨n, hn, hasked⟩ := hanswered m hm
    obtain rfl := Option.some.inj (hn.symm.trans hmk)
    exact ⟨rfl, hasked⟩
  have hnodup : (answered.map Prod.snd).Nodup := by
    have hfirsts : answered.Nodup :=
      (firsts_nodup sent).sublist (List.filter_sublist.filterMap Sent.answers)
    refine hfirsts.map_on fun k hk k' hk' heq => ?_
    exact Prod.ext ((hmem k hk).1.trans (hmem k' hk').1.symm) heq
  have hsubset : answered.map Prod.snd ⊆ asked.idxsOf (c, id) := by
    intro n hn
    obtain ⟨k, hk, rfl⟩ := List.mem_map.mp hn
    obtain ⟨hlt, heq⟩ := List.getElem?_eq_some_iff.mp (hmem k hk).2
    exact List.mem_idxsOf_iff_exists_getElem_pos.mpr ⟨hlt, by simpa using heq⟩
  calc (client_stream asked sent c).countP (OutgoingMessage.is_answer id)
      = ((firsts Sent.answers sent).filter counts).length := by
        unfold client_stream
        rw [List.countP_filterMap, List.countP_eq_length_filter]
    _ = (answered.map Prod.snd).length := by
        rw [List.length_map]
        refine (List.filterMap_length_eq_length.mpr fun m hm => ?_).symm
        obtain ⟨n, hn, -⟩ := hanswered m hm
        simp [hn]
    _ ≤ (asked.idxsOf (c, id)).length := hnodup.length_le_of_subset hsubset
    _ = asked.count (c, id) := List.length_idxsOf

/-- What is written to a client, in any run of the server, is part of its stream: every message is
for it, in the order in which the messages were sent, and none twice. So it gets at most one answer
to each of its requests, under the id that it chose, and no other client's. -/
theorem client_sees_own_stream (stdio : Bool) (actions : List (ServerAction V)) (s : AppServer V)
    (hrun : actions.foldlM AppServer.step (.start stdio) = some s) (c : ConnectionId) :
    (s.routed c).Sublist (client_stream s.asked s.sent c) ∧
      ∀ id, (s.routed c).countP (OutgoingMessage.is_answer id) ≤ s.asked.count (c, id) := by
  have h : s.Routed := AppServer.routed_run hrun
  have hreceived : (s.routed c).Sublist (client_stream s.asked (s.sent.take s.received) c) :=
    (List.sublist_append_left _ _).trans (h.stream c)
  have hsublist : (s.routed c).Sublist (client_stream s.asked s.sent c) :=
    hreceived.trans (client_stream_mono (List.take_prefix _ _)).sublist
  refine ⟨hsublist, fun id => ?_⟩
  exact hsublist.countP_le.trans (answers_le_requests h.sent_asked c id)

/-- Two clients use the same id, and the second is answered twice. The first goes before it is
answered. -/
def two_clients : List (ServerAction Nat) :=
  [.connection_opened 1, .connection_opened 2, .control_event, .control_event,
    .request 1 (.Integer 7), .request 2 (.Integer 7), .send (.send_response 2 1 20),
    .send (.send_response 2 1 21), .receive [1, 2], .check_target, .connection_closed 1,
    .remove_request_routes, .write_target true, .send (.send_response 1 0 10), .receive [2, 1],
    .control_event, .receive [2]]

theorem two_clients_streams :
    ∃ s, two_clients.foldlM AppServer.step (.start false) = some s ∧
      s.routed 2 = [.Response (.Integer 7) 20] ∧
      (s.routed 2).Sublist (client_stream s.asked s.sent 2) ∧ s.routed 1 = [] := by
  obtain ⟨s, hs⟩ : ∃ s, two_clients.foldlM AppServer.step (.start false) = some s := ⟨_, rfl⟩
  refine ⟨s, hs, ?_, (client_sees_own_stream false two_clients s hs 2).1, ?_⟩
  · obtain rfl := Option.some.inj hs
    rfl
  · obtain rfl := Option.some.inj hs
    rfl

end Ecode.app_server
