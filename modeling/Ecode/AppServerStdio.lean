-- The client of a stdio server gets the answers to its requests, also when it closes its input
-- before they are ready (app-server/src/lib.rs).
import Ecode.AppServerClients

namespace Ecode.app_server

open runs

variable {V : Type}

namespace AppServer

variable {s t : AppServer V} {c : ConnectionId}

/-- The stdio server when the router has been told of its client. -/
def stdio (c : ConnectionId) : AppServer V :=
  { start true with opened := [c], connections := [c], outbound_connections := [c] }

/-- An answer to the request has come so far that nothing but a failed write can stop it. -/
def Answering (s : AppServer V) (c : ConnectionId) (n : Nat) (id : RequestId) : Prop :=
  ∃ m ∈ s.sent.take s.received, m.answers = some (c, n) ∧
    (m.message id ∈ s.routed c ∨
      ∃ r ∈ s.routing, r.message = m.message id ∧ r.broadcast = false ∧
        (c ∈ r.targets ∨ c ∈ r.to_check ∧ c ∈ s.outbound_connections))

/-- A request is answered or has a route, and it has none once its connection is gone. -/
structure Awaited (s : AppServer V) (c : ConnectionId) : Prop where
  stdio : s.shutdown_when_no_connections = true
  opened : c ∈ s.opened
  leaving : .Closed c ∈ s.control ∨ c ∉ s.outbound_connections ∨ s.stage = .closing c →
    c ∉ s.connections
  gone : c ∉ s.connections → ∀ e ∈ s.request_routes, e.2.connection_id ≠ c
  answered : ∀ n id, s.asked[n]? = some (c, id) →
    (internal_request_id c n, ⟨c, id⟩) ∈ s.request_routes ∨ s.Answering c n id

theorem routed_stdio (c : ConnectionId) : Routed (stdio c : AppServer V) where
  routes := (routed_start true).routes
  sent_asked := (routed_start true).sent_asked
  received_le := (routed_start true).received_le
  outbound := List.nodup_singleton c
  once := (routed_start true).once
  stream := (routed_start true).stream

theorem awaited_start (c : ConnectionId) : Awaited (stdio c : AppServer V) c where
  stdio := rfl
  opened := List.mem_singleton_self c
  leaving := by simp [AppServer.stdio, start]
  gone := by simp [AppServer.stdio, start]
  answered := by simp [AppServer.stdio, start]

theorem Answering.idle (hidle : s.router_idle) {n : Nat} {id : RequestId}
    (h : s.Answering c n id) :
    ∃ m ∈ s.sent.take s.received, m.answers = some (c, n) ∧ m.message id ∈ s.routed c := by
  obtain ⟨m, hm, hk, hwritten | ⟨r, hr, -, -, hheld⟩⟩ := h
  · exact ⟨m, hm, hk, hwritten⟩
  · obtain ⟨hcheck, htargets⟩ := hidle r hr
    rw [hcheck, htargets] at hheld
    simp at hheld

/-- Steps that neither move the router nor its connections. -/
theorem Answering.other (hrouting : t.routing = s.routing)
    (hrouted : ∀ c, t.routed c = s.routed c)
    (hreceived : t.sent.take t.received = s.sent.take s.received)
    (houtbound : t.outbound_connections = s.outbound_connections) {n : Nat} {id : RequestId}
    (h : s.Answering c n id) : t.Answering c n id := by
  unfold Answering
  rw [hrouting, hrouted, hreceived, houtbound]
  exact h

theorem message_not_notification {m : Sent V} {k : ConnectionId × Nat} (hk : m.answers = some k)
    (id : RequestId) : (m.message id).is_notification = false := by
  cases m <;> cases hk <;> rfl

theorem Awaited.receive (h : Awaited s c) (hs : Routed s) (hidle : s.router_idle)
    {order : List ConnectionId} {m : Sent V} (hm : s.sent[s.received]? = some m) :
    Awaited { s with
      received := s.received + 1
      request_routes := (rewrite_response_routing m.envelope s.request_routes).2
      routing := routing_of order (rewrite_response_routing m.envelope s.request_routes).1 } c where
  stdio := h.stdio
  opened := h.opened
  leaving := h.leaving
  gone hc e he := by
    refine h.gone hc e ?_
    cases hk : m.answers with
    | none => rwa [rewrite_other hk] at he
    | some k =>
      rcases hs.answer_cases hk with ⟨id, -, -, -, hrewrite⟩ | ⟨-, hrewrite⟩
      · rw [hrewrite] at he
        exact (keyed.mem_erase.mp he).1
      · rwa [hrewrite] at he
  answered n id hasked := by
    rcases h.answered n id hasked with hroute | hanswering
    · cases hk : m.answers with
      | none =>
        left
        rw [rewrite_other hk]
        exact hroute
      | some k =>
        rcases hs.answer_cases hk with ⟨id', hasked', -, -, hrewrite⟩ | ⟨hnone, hrewrite⟩
        · rw [hrewrite]
          by_cases hkn : k = (c, n)
          · subst hkn
            right
            obtain rfl : id = id' := by simpa [hasked] using hasked'
            have hknown : c ∈ s.outbound_connections := by
              by_contra hnot
              exact h.gone (h.leaving (.inr (.inl hnot))) _ hroute rfl
            refine ⟨m, ?_, hk, .inr ⟨_, rfl, rfl, rfl, .inr ⟨List.mem_singleton_self c, hknown⟩⟩⟩
            dsimp only
            rw [received_snoc hm]
            exact List.mem_append_right _ (List.mem_singleton_self m)
          · left
            refine keyed.mem_erase.mpr ⟨hroute, fun heq => hkn ?_⟩
            obtain ⟨hc, hn⟩ := internal_request_id_inj heq
            exact Prod.ext hc.symm hn.symm
        · left
          rw [hrewrite]
          exact hroute
    · right
      obtain ⟨m', hm', hk, hwritten⟩ := hanswering.idle hidle
      refine ⟨m', ?_, hk, .inl hwritten⟩
      dsimp only
      rw [received_snoc hm]
      exact List.mem_append_left _ hm'

theorem Awaited.request (h : Awaited s c) {c' : ConnectionId} (hc' : c' ∈ s.connections)
    (id : RequestId) :
    Awaited { s with
      asked := s.asked ++ [(c', id)]
      request_routes := keyed.insert Prod.fst s.request_routes
        (internal_request_id c' s.asked.length, ⟨c', id⟩) } c where
  stdio := h.stdio
  opened := h.opened
  leaving := h.leaving
  gone hc e he := by
    rcases keyed.mem_insert.mp he with rfl | ⟨hold, -⟩
    · rintro rfl
      exact hc hc'
    · exact h.gone hc e hold
  answered n id' hasked := by
    dsimp only at hasked ⊢
    rw [keyed.mem_insert]
    rcases Nat.lt_or_ge n s.asked.length with hn | hn
    · rw [List.getElem?_append_left hn] at hasked
      refine (h.answered n id' hasked).imp (fun hroute => .inr ⟨hroute, fun heq => ?_⟩)
        fun hanswering => hanswering
      rw [(internal_request_id_inj heq).2] at hn
      exact absurd hn (lt_irrefl _)
    · rw [List.getElem?_append_right hn, List.getElem?_singleton] at hasked
      split_ifs at hasked with hzero
      obtain rfl : n = s.asked.length := by omega
      obtain ⟨rfl, rfl⟩ := Prod.mk.inj (Option.some.inj hasked)
      exact .inl (.inl rfl)

theorem Awaited.check_target (h : Awaited s c) {message : OutgoingMessage V} {broadcast : Bool}
    {c' : ConnectionId} {to_check targets : List ConnectionId}
    (hr : s.routing = some ⟨message, broadcast, c' :: to_check, targets⟩) :
    Awaited { s with
      routing := some ⟨message, broadcast, to_check,
        if s.is_target ⟨message, broadcast, c' :: to_check, targets⟩ c' then targets ++ [c']
        else targets⟩ } c where
  stdio := h.stdio
  opened := h.opened
  leaving := h.leaving
  gone := h.gone
  answered n id hasked := by
    refine (h.answered n id hasked).imp (fun hroute => hroute) ?_
    rintro ⟨m, hm, hk, hwritten | ⟨r, hr', hmessage, hone, hheld⟩⟩
    · exact ⟨m, hm, hk, .inl hwritten⟩
    · obtain rfl := Option.some.inj (hr.symm.trans hr')
      refine ⟨m, hm, hk, .inr ⟨_, rfl, hmessage, hone, ?_⟩⟩
      dsimp only at hmessage hone hheld ⊢
      rcases hheld with hfound | ⟨hcheck, hknown⟩
      · left
        split_ifs
        · exact List.mem_append_left _ hfound
        · exact hfound
      · rcases List.mem_cons.mp hcheck with rfl | hlater
        · left
          have hskip : s.should_skip_notification_for_connection c message = false :=
            skip_of_not_notification (by rw [hmessage, message_not_notification hk])
          rw [if_pos (by simp [is_target, hknown, hone, hskip])]
          exact List.mem_append_right _ (List.mem_singleton_self c)
        · exact .inr ⟨hlater, hknown⟩

theorem Awaited.write_target (h : Awaited s c) {message : OutgoingMessage V} {broadcast : Bool}
    {c' : ConnectionId} {targets : List ConnectionId}
    (hr : s.routing = some ⟨message, broadcast, [], c' :: targets⟩) :
    Awaited { s with
      routing := some ⟨message, broadcast, [], targets⟩
      written := s.deliver c' (.routed message) } c where
  stdio := h.stdio
  opened := h.opened
  leaving := h.leaving
  gone := h.gone
  answered n id hasked := by
    refine (h.answered n id hasked).imp (fun hroute => hroute) ?_
    rintro ⟨m, hm, hk, hheld⟩
    refine ⟨m, hm, hk, ?_⟩
    unfold routed
    dsimp only
    rw [routed_deliver]
    rcases hheld with hwritten | ⟨r, hr', hmessage, hone, hheld⟩
    · exact .inl (List.mem_append_left _ hwritten)
    · obtain rfl := Option.some.inj (hr.symm.trans hr')
      rcases hheld with hfound | ⟨hcheck, -⟩
      · rcases List.mem_cons.mp hfound with rfl | hlater
        · left
          rw [if_pos rfl]
          exact List.mem_append_right _ (by simp [Delivery.message?, ← hmessage])
        · exact .inr ⟨_, rfl, hmessage, hone, .inl hlater⟩
      · cases hcheck

/-- Steps that make no request. -/
theorem Awaited.other (h : Awaited s c)
    (hstdio : t.shutdown_when_no_connections = s.shutdown_when_no_connections)
    (hopened : s.opened ⊆ t.opened)
    (hleaving : .Closed c ∈ t.control ∨ c ∉ t.outbound_connections ∨ t.stage = .closing c →
      c ∉ t.connections)
    (hgone : c ∉ t.connections → ∀ e ∈ t.request_routes, e.2.connection_id ≠ c)
    (hasked : t.asked = s.asked)
    (hroutes : ∀ e ∈ s.request_routes, e.2.connection_id = c → e ∈ t.request_routes)
    (hanswering : ∀ n id, s.Answering c n id → t.Answering c n id) : Awaited t c where
  stdio := hstdio.trans h.stdio
  opened := hopened h.opened
  leaving := hleaving
  gone := hgone
  answered n id hn := by
    rw [hasked] at hn
    exact (h.answered n id hn).imp (fun hroute => hroutes _ hroute rfl) (hanswering n id)

theorem Awaited.connection_closed (h : Awaited s c) {c' : ConnectionId}
    (hroutes : (!s.shutdown_when_no_connections || s.no_request_routes c') = true) :
    Awaited { s with
      stage := .closing c'
      control := s.control ++ [.Closed c']
      connections := s.connections.filter (· ≠ c') } c := by
  have hnone : s.no_request_routes c' = true := by simpa [h.stdio] using hroutes
  have hkept : c ∉ s.connections → c ∉ s.connections.filter (· ≠ c') :=
    fun hc hmem => hc (List.mem_of_mem_filter hmem)
  refine h.other rfl (List.Subset.refl _) ?_ ?_ rfl (fun _ he _ => he) fun n id hanswering =>
    hanswering.other rfl (fun _ => rfl) rfl rfl
  · rintro (hcontrol | houtbound | hstage)
    · rcases List.mem_append.mp hcontrol with hold | hnew
      · exact hkept (h.leaving (.inl hold))
      · obtain rfl : c = c' := by simpa using hnew
        simp
    · exact hkept (h.leaving (.inr (.inl houtbound)))
    · obtain rfl : c' = c := by simpa using hstage
      simp
  · intro hc e he
    by_cases hcc : c = c'
    · subst hcc
      unfold no_request_routes at hnone
      simp only [Bool.not_eq_true', List.any_eq_false, beq_iff_eq] at hnone
      exact hnone e he
    · refine h.gone (fun hmem => hc ?_) e he
      exact List.mem_filter.mpr ⟨hmem, by simpa using hcc⟩

theorem Awaited.remove_request_routes (h : Awaited s c) {c' : ConnectionId}
    (hstage : s.stage = .closing c') {stage : Stage} (hnext : stage = .stopped ∨ stage = .receiving) :
    Awaited { s with
      stage := stage
      request_routes := remove_request_routes_for_connection s.request_routes c' } c := by
  refine h.other rfl (List.Subset.refl _) ?_ ?_ rfl ?_ fun n id hanswering =>
    hanswering.other rfl (fun _ => rfl) rfl rfl
  · rintro (hcontrol | houtbound | hstage)
    · exact h.leaving (.inl hcontrol)
    · exact h.leaving (.inr (.inl houtbound))
    · dsimp only at hstage
      rw [hstage] at hnext
      simp at hnext
  · intro hc e he
    exact h.gone hc e (List.mem_of_mem_filter he)
  · intro e he hec
    refine List.mem_filter.mpr ⟨he, ?_⟩
    rw [hec]
    refine bne_iff_ne.mpr fun hcc => ?_
    subst hcc
    exact h.gone (h.leaving (.inr (.inr hstage))) e he hec

/-- The router takes up an event of a connection. -/
theorem Awaited.control_event (h : Awaited s c) (hidle : s.router_idle)
    {control : List OutboundControlEvent} {outbound : List ConnectionId}
    (hcontrol : .Closed c ∈ control → .Closed c ∈ s.control)
    (houtbound : c ∉ outbound → .Closed c ∈ s.control ∨ c ∉ s.outbound_connections) :
    Awaited { s with control := control, outbound_connections := outbound } c := by
  refine h.other rfl (List.Subset.refl _) ?_ h.gone rfl (fun _ he _ => he) ?_
  · rintro (hclosed | hunknown | hstage)
    · exact h.leaving (.inl (hcontrol hclosed))
    · rcases houtbound hunknown with hclosed | hunknown
      · exact h.leaving (.inl hclosed)
      · exact h.leaving (.inr (.inl hunknown))
    · exact h.leaving (.inr (.inr hstage))
  · intro n id hanswering
    obtain ⟨m, hm, hk, hwritten⟩ := hanswering.idle hidle
    exact ⟨m, hm, hk, .inl hwritten⟩

theorem Awaited.step (h : Awaited s c) (hs : Routed s) {a : ServerAction V}
    (ha : a ≠ .write_target false) (hstep : s.step a = some t) : Awaited t c := by
  cases a with
  | connection_opened c' =>
    obtain ⟨⟨-, hnew⟩, hstep⟩ := Option.ite_none_right_eq_some.mp hstep
    obtain rfl := Option.some.inj hstep
    have hcc : c ≠ c' := by
      rintro rfl
      exact hnew h.opened
    have hmem : c ∈ s.connections.insert c' → c ∈ s.connections := by simp [hcc]
    refine h.other rfl (List.subset_cons_self _ _) ?_ ?_ rfl (fun _ he _ => he)
      fun n id hanswering => hanswering.other rfl (fun _ => rfl) rfl rfl
    · intro hleaving hc
      refine h.leaving (hleaving.imp (fun hcontrol => ?_) fun h => h) (hmem hc)
      simpa using hcontrol
    · intro hc
      exact h.gone fun hold => hc (List.mem_insert_of_mem hold)
  | connection_closed c' =>
    obtain ⟨⟨-, -, hroutes⟩, hstep⟩ := Option.ite_none_right_eq_some.mp hstep
    obtain rfl := Option.some.inj hstep
    exact h.connection_closed hroutes
  | remove_request_routes =>
    simp only [AppServer.step] at hstep
    split at hstep
    · next c' hstage =>
      obtain rfl := Option.some.inj hstep
      refine h.remove_request_routes hstage ?_
      split_ifs
      · exact .inl rfl
      · exact .inr rfl
    · cases hstep
  | request c' id =>
    obtain ⟨⟨-, hc'⟩, hstep⟩ := Option.ite_none_right_eq_some.mp hstep
    obtain rfl := Option.some.inj hstep
    exact h.request hc' id
  | process_initialization c' methods =>
    obtain ⟨-, hstep⟩ := Option.ite_none_right_eq_some.mp hstep
    obtain rfl := Option.some.inj hstep
    refine h.other rfl (List.Subset.refl _) ?_ h.gone rfl (fun _ he _ => he)
      fun n id hanswering => hanswering.other rfl (fun _ => rfl) rfl rfl
    rintro (hcontrol | houtbound | hstage)
    · exact h.leaving (.inl hcontrol)
    · exact h.leaving (.inr (.inl houtbound))
    · cases hstage
  | store_initialized =>
    simp only [AppServer.step] at hstep
    split at hstep
    · obtain rfl := Option.some.inj hstep
      refine h.other rfl (List.Subset.refl _) ?_ h.gone rfl (fun _ he _ => he)
        fun n id hanswering => hanswering.other rfl (fun _ => rfl) rfl rfl
      rintro (hcontrol | houtbound | hstage)
      · exact h.leaving (.inl hcontrol)
      · exact h.leaving (.inr (.inl houtbound))
      · cases hstage
    · cases hstep
  | send m =>
    obtain ⟨-, hstep⟩ := Option.ite_none_right_eq_some.mp hstep
    obtain rfl := Option.some.inj hstep
    refine h.other rfl (List.Subset.refl _) h.leaving h.gone rfl (fun _ he _ => he)
      fun n id hanswering => Answering.other ?_ (fun _ => ?_) ?_ ?_ hanswering
    · rfl
    · rfl
    · exact List.take_append_of_le_length hs.received_le
    · rfl
  | control_event =>
    obtain ⟨hidle, hstep⟩ := Option.ite_none_right_eq_some.mp hstep
    split at hstep
    · cases hstep
    · next c' rest hcontrol =>
      obtain rfl := Option.some.inj hstep
      refine h.control_event hidle (fun hc => ?_) fun hc => .inr fun hold => ?_
      · rw [hcontrol]
        exact List.mem_cons_of_mem _ hc
      · exact hc (List.mem_insert_of_mem hold)
    · next c' rest hcontrol =>
      obtain rfl := Option.some.inj hstep
      refine h.control_event hidle (fun hc => ?_) fun hc => ?_
      · rw [hcontrol]
        exact List.mem_cons_of_mem _ hc
      · by_cases hcc : c = c'
        · left
          rw [hcontrol, hcc]
          exact List.mem_cons_self
        · exact .inr fun hold => hc (List.mem_filter.mpr ⟨hold, by simpa using hcc⟩)
  | receive order =>
    obtain ⟨⟨hidle, -⟩, hstep⟩ := Option.ite_none_right_eq_some.mp hstep
    split at hstep
    · cases hstep
    · next m hm =>
      obtain rfl := Option.some.inj hstep
      exact h.receive hs hidle hm
  | check_target =>
    simp only [AppServer.step] at hstep
    split at hstep
    · next hr =>
      obtain rfl := Option.some.inj hstep
      exact h.check_target hr
    · cases hstep
  | write_target ok =>
    simp only [AppServer.step] at hstep
    split at hstep
    · next hr =>
      split_ifs at hstep with hok
      · obtain rfl := Option.some.inj hstep
        exact h.write_target hr
      · exact absurd (by simpa using hok) ha
    · cases hstep
  | overload c' id =>
    obtain rfl := Option.some.inj hstep
    refine h.other rfl (List.Subset.refl _) h.leaving h.gone rfl (fun _ he _ => he)
      fun n id hanswering => Answering.other ?_ (fun c'' => ?_) ?_ ?_ hanswering
    · rfl
    · unfold routed
      dsimp only
      rw [routed_deliver]
      simp [Delivery.message?, routed]
    · rfl
    · rfl

end AppServer

/-- A stdio client can close its input after sending requests: once the server has taken note of
that, every request was answered and every answer is written, unless a write failed. -/
theorem stdio_client_is_answered (c : ConnectionId) (actions : List (ServerAction V))
    (t : AppServer V) (hrun : actions.foldlM AppServer.step (.stdio c) = some t)
    (hwrites : .write_target false ∉ actions) (hclosed : c ∉ t.connections)
    (hidle : t.router_idle) (n : Nat) (id : RequestId) (hasked : t.asked[n]? = some (c, id)) :
    ∃ m ∈ t.sent, m.answers = some (c, n) ∧ m.message id ∈ t.routed c := by
  have hguarded : Guarded AppServer.step (fun _ a => a ≠ .write_target false) (.stdio c) actions :=
    guarded_of_forall (fun a ha _ => ne_of_mem_of_not_mem ha hwrites) _
  have hkept : t.Routed ∧ t.Awaited c :=
    Guarded.invariant (I := fun s => s.Routed ∧ s.Awaited c)
      (fun _ _ _ hs ha hstep => ⟨hs.1.step hstep, hs.2.step hs.1 ha hstep⟩) hguarded
      ⟨AppServer.routed_stdio c, AppServer.awaited_start c⟩ hrun
  obtain ⟨-, hawaited⟩ := hkept
  rcases hawaited.answered n id hasked with hroute | hanswering
  · exact absurd rfl (hawaited.gone hclosed _ hroute)
  · obtain ⟨m, hm, hk, hwritten⟩ := hanswering.idle hidle
    exact ⟨m, List.mem_of_mem_take hm, hk, hwritten⟩

/-- The client closes its input before its request is answered. -/
def closes_early : List (ServerAction Nat) :=
  [.request 0 (.Integer 7), .send (.send_response 0 0 3), .receive [0], .connection_closed 0,
    .check_target, .write_target true, .control_event, .remove_request_routes]

theorem closes_early_answered :
    ∃ t, closes_early.foldlM AppServer.step (.stdio 0) = some t ∧ t.outbound_connections = [] ∧
      ∃ m ∈ t.sent, m.answers = some (0, 0) ∧ m.message (.Integer 7) ∈ t.routed 0 := by
  obtain ⟨t, ht⟩ : ∃ t, closes_early.foldlM AppServer.step (.stdio 0) = some t := ⟨_, rfl⟩
  have hanswered := stdio_client_is_answered 0 closes_early t ht (by decide)
    (by obtain rfl := Option.some.inj ht; decide) (by obtain rfl := Option.some.inj ht; decide) 0
    (.Integer 7) (by obtain rfl := Option.some.inj ht; rfl)
  refine ⟨t, ht, ?_, hanswered⟩
  obtain rfl := Option.some.inj ht
  rfl

end Ecode.app_server
