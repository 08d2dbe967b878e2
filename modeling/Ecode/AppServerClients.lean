-- What a client of the app server is told before and after it is initialized (app-server/src/lib.rs,
-- transport.rs, message_processor.rs).
import Ecode.AppServerStreams

namespace Ecode.app_server

open runs repeats

variable {V : Type}

def OutgoingMessage.is_notification : OutgoingMessage V → Bool
  | .Notification .. => true
  | _ => false

/-- The message is for the client `c` and for no other. -/
def OnlyFor (asked : List (ConnectionId × RequestId)) (sent : List (Sent V)) (c : ConnectionId)
    (message : OutgoingMessage V) : Prop :=
  ∃ m ∈ sent, m.addressee = some c ∧ m.for_client asked c = some message

theorem OnlyFor.sent {asked : List (ConnectionId × RequestId)} {sent : List (Sent V)}
    {c : ConnectionId} {message : OutgoingMessage V} (h : OnlyFor asked sent c message)
    (m : Sent V) : OnlyFor asked (sent ++ [m]) c message := by
  obtain ⟨m', hm', haddressee, hfor⟩ := h
  exact ⟨m', List.mem_append_left _ hm', haddressee, hfor⟩

theorem OnlyFor.asked {asked : List (ConnectionId × RequestId)} {sent : List (Sent V)}
    {c : ConnectionId} {message : OutgoingMessage V} (h : OnlyFor asked sent c message)
    (hasked : ∀ m ∈ sent, ∀ k ∈ m.answers, ∃ r ∈ asked[k.2]?, r.1 = k.1)
    (r : ConnectionId × RequestId) : OnlyFor (asked ++ [r]) sent c message := by
  obtain ⟨m, hm, haddressee, hfor⟩ := h
  refine ⟨m, hm, haddressee, ?_⟩
  rw [for_client_append (hasked m hm)]
  exact hfor

namespace AppServer

variable {s t : AppServer V} {c : ConnectionId}

/-! ## Before and after the initialization -/

structure Told (s : AppServer V) : Prop where
  notified : ∀ c method params,
    .send_notification_to_connection c method params ∈ s.sent → s.initialized c = true
  initializing : ∀ c, s.stage = .initializing c → s.initialized c = false
  own : ∀ r ∈ s.routing, r.broadcast = false →
    ∀ c ∈ r.to_check ++ r.targets, OnlyFor s.asked s.sent c r.message
  /-- A broadcast goes to initialized connections, and none of them opted out of it. -/
  found : ∀ r ∈ s.routing, ∀ c ∈ r.targets, (r.broadcast = true → s.initialized c = true) ∧
    (s.initialized c = true → s.should_skip_notification_for_connection c r.message = false)
  before : ∀ c, s.initialized c = false → ∀ message ∈ s.routed c,
    OnlyFor s.asked s.sent c message

theorem told_start (stdio : Bool) : Told (start stdio : AppServer V) where
  notified := by simp [start]
  initializing := by simp [start]
  own := by simp [start]
  found := by simp [start]
  before := by simp [start, routed]

/-- A notification to one connection goes to an initialized one. -/
theorem Told.notification (h : Told s) {message : OutgoingMessage V}
    (hm : OnlyFor s.asked s.sent c message) (hnotification : message.is_notification = true) :
    s.initialized c = true := by
  obtain ⟨m, hmem, haddressee, hfor⟩ := hm
  cases m with
  | send_response c' n result =>
    simp only [Sent.for_client, Option.ite_none_right_eq_some, Option.map_eq_some_iff] at hfor
    obtain ⟨-, r, -, rfl⟩ := hfor
    cases hnotification
  | send_error c' n error =>
    simp only [Sent.for_client, Option.ite_none_right_eq_some, Option.map_eq_some_iff] at hfor
    obtain ⟨-, r, -, rfl⟩ := hfor
    cases hnotification
  | send_request owner id method params =>
    simp only [Sent.for_client, Option.ite_none_right_eq_some, Option.some.injEq] at hfor
    obtain ⟨-, rfl⟩ := hfor
    cases hnotification
  | send_notification method params => cases haddressee
  | send_notification_to_connection c' method params =>
    obtain rfl := Option.some.inj haddressee
    exact h.notified _ method params hmem

theorem skip_of_not_notification {message : OutgoingMessage V}
    (h : message.is_notification = false) :
    s.should_skip_notification_for_connection c message = false := by
  cases message with
  | Notification method params => cases h
  | _ => rfl

/-- Steps that leave what is sent and what the router does alone. -/
theorem Told.other (h : Told s) (hrouting : t.routing = s.routing)
    (hrouted : ∀ c, t.routed c = s.routed c) (hasked : t.asked = s.asked) (hsent : t.sent = s.sent)
    (hinitialized : t.initialized = s.initialized)
    (hopted : ∀ c, s.initialized c = true →
      t.opted_out_notification_methods c = s.opted_out_notification_methods c)
    (hstage : ∀ c, t.stage = .initializing c → s.initialized c = false) : Told t where
  notified := by
    rw [hsent, hinitialized]
    exact h.notified
  initializing := by
    rw [hinitialized]
    exact hstage
  own := by
    rw [hrouting, hasked, hsent]
    exact h.own
  found := by
    rw [hrouting, hinitialized]
    intro r hr c hc
    obtain ⟨hbroadcast, hskip⟩ := h.found r hr c hc
    refine ⟨hbroadcast, fun hc => ?_⟩
    rw [← hskip hc]
    unfold should_skip_notification_for_connection
    rw [hopted c hc]
  before := by
    intro c
    rw [hinitialized, hrouted, hasked, hsent]
    exact h.before c

theorem Told.store_initialized (h : Told s) (hstage : s.stage = .initializing c) :
    Told { s with
      stage := .receiving, initialized := Function.update s.initialized c true } where
  notified c' method params hm := by
    dsimp only
    by_cases hc : c' = c
    · rw [hc, Function.update_self]
    · rw [Function.update_of_ne hc]
      exact h.notified c' method params hm
  initializing _ hstage := by cases hstage
  own := h.own
  found r hr c' hc' := by
    obtain ⟨hbroadcast, hskip⟩ := h.found r hr c' hc'
    dsimp only
    by_cases hc : c' = c
    · subst hc
      have hnot := h.initializing c' hstage
      refine ⟨fun _ => Function.update_self .., fun _ => ?_⟩
      refine skip_of_not_notification ?_
      -- A target that was not initialized has the message for itself alone.
      by_contra hnotification
      have hone : r.broadcast = false := by
        by_contra hmany
        rw [hbroadcast (by simpa using hmany)] at hnot
        cases hnot
      rw [h.notification (h.own r hr hone c' (List.mem_append_right _ hc'))
        (by simpa using hnotification)] at hnot
      cases hnot
    · rw [Function.update_of_ne hc]
      exact ⟨hbroadcast, hskip⟩
  before c' hc' := by
    dsimp only at hc'
    by_cases hc : c' = c
    · rw [hc, Function.update_self] at hc'
      cases hc'
    · rw [Function.update_of_ne hc] at hc'
      exact h.before c' hc'

theorem Told.request (h : Told s) (hs : Routed s) (r : ConnectionId × RequestId)
    (routes : RequestRoutes) : Told { s with asked := s.asked ++ [r], request_routes := routes } where
  notified := h.notified
  initializing := h.initializing
  own r' hr hone c hc := (h.own r' hr hone c hc).asked hs.sent_asked r
  found := h.found
  before c hc message hm := (h.before c hc message hm).asked hs.sent_asked r

theorem Told.send (h : Told s) {m : Sent V} (hm : s.may_send m) :
    Told { s with sent := s.sent ++ [m] } where
  notified c method params hmem := by
    rcases List.mem_append.mp hmem with hold | hnew
    · exact h.notified c method params hold
    · obtain rfl := List.mem_singleton.mp hnew
      exact hm
  initializing := h.initializing
  own r hr hone c hc := (h.own r hr hone c hc).sent m
  found := h.found
  before c hc message hmem := (h.before c hc message hmem).sent m

theorem Told.receive (h : Told s) (hs : Routed s) {order : List ConnectionId} {m : Sent V}
    (hm : s.sent[s.received]? = some m) :
    Told { s with
      received := s.received + 1
      request_routes := (rewrite_response_routing m.envelope s.request_routes).2
      routing := routing_of order (rewrite_response_routing m.envelope s.request_routes).1 } where
  notified := h.notified
  initializing := h.initializing
  own r hr hone c hc := by
    obtain ⟨-, hfor, haddressee⟩ := hs.held_received hr hc
    exact ⟨m, List.mem_of_getElem? hm, haddressee hone, hfor⟩
  found r hr c hc := by
    have hnone : r.targets = [] := by
      match h : (rewrite_response_routing m.envelope s.request_routes).1 with
      | none =>
        dsimp only at hr
        rw [h] at hr
        cases hr
      | some (.ToConnection c message) =>
        dsimp only at hr
        rw [h] at hr
        obtain rfl := Option.some.inj hr
        rfl
      | some (.Broadcast message) =>
        dsimp only at hr
        rw [h] at hr
        obtain rfl := Option.some.inj hr
        rfl
    rw [hnone] at hc
    cases hc
  before := h.before

theorem Told.check_target (h : Told s) {message : OutgoingMessage V} {broadcast : Bool}
    {to_check targets : List ConnectionId}
    (hr : s.routing = some ⟨message, broadcast, c :: to_check, targets⟩) :
    Told { s with
      routing := some ⟨message, broadcast, to_check,
        if s.is_target ⟨message, broadcast, c :: to_check, targets⟩ c then targets ++ [c]
        else targets⟩ } where
  notified := h.notified
  initializing := h.initializing
  own r hr' hone c' hc' := by
    obtain rfl := Option.some.inj hr'
    refine h.own _ hr hone c' ?_
    dsimp only at hc' ⊢
    rcases List.mem_append.mp hc' with hcheck | htargets
    · exact List.mem_append_left _ (List.mem_cons_of_mem c hcheck)
    · split_ifs at htargets with hfound
      · rcases List.mem_append.mp htargets with hold | hnew
        · exact List.mem_append_right _ hold
        · obtain rfl := List.mem_singleton.mp hnew
          exact List.mem_append_left _ List.mem_cons_self
      · exact List.mem_append_right _ htargets
  found r hr' c' hc' := by
    obtain rfl := Option.some.inj hr'
    dsimp only at hc' ⊢
    split_ifs at hc' with hfound
    · rcases List.mem_append.mp hc' with hold | hnew
      · exact h.found _ hr c' hold
      · obtain rfl := List.mem_singleton.mp hnew
        unfold is_target at hfound
        simp only [Bool.and_eq_true, Bool.or_eq_true, Bool.not_eq_true'] at hfound
        obtain ⟨⟨-, hinitialized⟩, hskip⟩ := hfound
        refine ⟨fun hmany => ?_, fun _ => hskip⟩
        rcases hinitialized with hone | hdone
        · rw [hone] at hmany
          cases hmany
        · exact hdone
    · exact h.found _ hr c' hc'
  before := h.before

theorem Told.write_target (h : Told s) {message : OutgoingMessage V} {broadcast : Bool}
    {targets : List ConnectionId} (hr : s.routing = some ⟨message, broadcast, [], c :: targets⟩)
    {written : ConnectionId → List (Delivery V)}
    (hwritten : written = s.written ∨ written = s.deliver c (.routed message))
    (outbound : List ConnectionId) :
    Told { s with
      routing := some ⟨message, broadcast, [], targets⟩
      written := written
      outbound_connections := outbound } where
  notified := h.notified
  initializing := h.initializing
  own r hr' hone c' hc' := by
    obtain rfl := Option.some.inj hr'
    exact h.own _ hr hone c' (List.mem_cons_of_mem c hc')
  found r hr' c' hc' := by
    obtain rfl := Option.some.inj hr'
    exact h.found _ hr c' (List.mem_cons_of_mem c hc')
  before c' hc' message' hm := by
    unfold routed at hm
    dsimp only at hm
    rcases hwritten with rfl | rfl
    · exact h.before c' hc' message' hm
    · rw [routed_deliver] at hm
      rcases List.mem_append.mp hm with hold | hnew
      · exact h.before c' hc' message' hold
      · split_ifs at hnew with hc
        · subst hc
          obtain rfl : message' = message := by simpa [Delivery.message?] using hnew
          have hone : broadcast = false := by
            by_contra hmany
            dsimp only at hc'
            rw [(h.found _ hr c' List.mem_cons_self).1 (by simpa using hmany)] at hc'
            cases hc'
          exact h.own _ hr hone c' List.mem_cons_self
        · cases hnew

theorem Told.step (h : Told s) (hs : Routed s) {a : ServerAction V} (hstep : s.step a = some t) :
    Told t := by
  cases a with
  | connection_opened c =>
    obtain ⟨-, hstep⟩ := Option.ite_none_right_eq_some.mp hstep
    obtain rfl := Option.some.inj hstep
    exact h.other rfl (fun _ => rfl) rfl rfl rfl (fun _ _ => rfl) h.initializing
  | connection_closed c =>
    obtain ⟨-, hstep⟩ := Option.ite_none_right_eq_some.mp hstep
    obtain rfl := Option.some.inj hstep
    exact h.other rfl (fun _ => rfl) rfl rfl rfl (fun _ _ => rfl) (by simp)
  | remove_request_routes =>
    simp only [AppServer.step] at hstep
    split at hstep
    · obtain rfl := Option.some.inj hstep
      refine h.other rfl (fun _ => rfl) rfl rfl rfl (fun _ _ => rfl) fun c hc => ?_
      dsimp only at hc
      split_ifs at hc
    · cases hstep
  | request c id =>
    obtain ⟨-, hstep⟩ := Option.ite_none_right_eq_some.mp hstep
    obtain rfl := Option.some.inj hstep
    exact h.request hs (c, id) _
  | process_initialization c methods =>
    obtain ⟨⟨-, -, hnot⟩, hstep⟩ := Option.ite_none_right_eq_some.mp hstep
    obtain rfl := Option.some.inj hstep
    refine h.other rfl (fun _ => rfl) rfl rfl rfl (fun c' hc' => ?_) fun c' hc' => ?_
    · refine Function.update_of_ne ?_ ..
      rintro rfl
      rw [hnot] at hc'
      cases hc'
    · obtain rfl : c = c' := by simpa using hc'
      exact hnot
  | store_initialized =>
    simp only [AppServer.step] at hstep
    split at hstep
    · next hstage =>
      obtain rfl := Option.some.inj hstep
      exact h.store_initialized hstage
    · cases hstep
  | send m =>
    obtain ⟨hm, hstep⟩ := Option.ite_none_right_eq_some.mp hstep
    obtain rfl := Option.some.inj hstep
    exact h.send hm
  | control_event =>
    obtain ⟨-, hstep⟩ := Option.ite_none_right_eq_some.mp hstep
    split at hstep
    · cases hstep
    · obtain rfl := Option.some.inj hstep
      exact h.other rfl (fun _ => rfl) rfl rfl rfl (fun _ _ => rfl) h.initializing
    · obtain rfl := Option.some.inj hstep
      exact h.other rfl (fun _ => rfl) rfl rfl rfl (fun _ _ => rfl) h.initializing
  | receive order =>
    obtain ⟨-, hstep⟩ := Option.ite_none_right_eq_some.mp hstep
    split at hstep
    · cases hstep
    · next m hm =>
      obtain rfl := Option.some.inj hstep
      exact h.receive hs hm
  | check_target =>
    simp only [AppServer.step] at hstep
    split at hstep
    · next hr =>
      obtain rfl := Option.some.inj hstep
      exact h.check_target hr
    · cases hstep
  | write_target ok =>
    simp only [AppServer.step] at hstep
    split at hstep
    · next hr =>
      split_ifs at hstep
      · obtain rfl := Option.some.inj hstep
        exact h.write_target hr (.inr rfl) _
      · obtain rfl := Option.some.inj hstep
        exact h.write_target hr (.inl rfl) _
    · cases hstep
  | overload c id =>
    obtain rfl := Option.some.inj hstep
    refine h.other rfl (fun c' => ?_) rfl rfl rfl (fun _ _ => rfl) h.initializing
    unfold routed
    dsimp only
    rw [routed_deliver]
    simp [Delivery.message?, routed]

theorem told_run {stdio : Bool} {actions : List (ServerAction V)}
    (hrun : actions.foldlM AppServer.step (.start stdio) = some s) : Routed s ∧ Told s :=
  run_invariant (I := fun s => Routed s ∧ Told s)
    (fun _ _ _ hs hstep => ⟨hs.1.step hstep, hs.2.step hs.1 hstep⟩)
    ⟨routed_start stdio, told_start stdio⟩ hrun

/-! ## What a step writes -/

/-- A step writes one message to one connection, if anything. -/
theorem step_written {a : ServerAction V} (hstep : s.step a = some t) :
    t.written = s.written ∨ (∃ c id, t.written = s.deliver c (.overloaded id)) ∨
      ∃ r ∈ s.routing, ∃ c ∈ r.targets, t.written = s.deliver c (.routed r.message) := by
  cases a with
  | remove_request_routes =>
    simp only [AppServer.step] at hstep
    split at hstep
    · obtain rfl := Option.some.inj hstep
      exact .inl rfl
    · cases hstep
  | store_initialized =>
    simp only [AppServer.step] at hstep
    split at hstep
    · obtain rfl := Option.some.inj hstep
      exact .inl rfl
    · cases hstep
  | control_event =>
    obtain ⟨-, hstep⟩ := Option.ite_none_right_eq_some.mp hstep
    split at hstep
    · cases hstep
    · obtain rfl := Option.some.inj hstep
      exact .inl rfl
    · obtain rfl := Option.some.inj hstep
      exact .inl rfl
  | receive order =>
    obtain ⟨-, hstep⟩ := Option.ite_none_right_eq_some.mp hstep
    split at hstep
    · cases hstep
    · obtain rfl := Option.some.inj hstep
      exact .inl rfl
  | check_target =>
    simp only [AppServer.step] at hstep
    split at hstep
    · obtain rfl := Option.some.inj hstep
      exact .inl rfl
    · cases hstep
  | write_target ok =>
    simp only [AppServer.step] at hstep
    split at hstep
    · next hr =>
      split_ifs at hstep
      · obtain rfl := Option.some.inj hstep
        exact .inr (.inr ⟨_, hr, _, List.mem_cons_self, rfl⟩)
      · obtain rfl := Option.some.inj hstep
        exact .inl rfl
    · cases hstep
  | overload c id =>
    obtain rfl := Option.some.inj hstep
    exact .inr (.inl ⟨c, id, rfl⟩)
  | _ =>
    obtain ⟨-, hstep⟩ := Option.ite_none_right_eq_some.mp hstep
    obtain rfl := Option.some.inj hstep
    exact .inl rfl

/-- An initialized connection stays initialized, and its opt-outs stay as they are. -/
theorem step_initialized {a : ServerAction V} (hstep : s.step a = some t)
    (hc : s.initialized c = true) :
    t.initialized c = true ∧
      t.opted_out_notification_methods c = s.opted_out_notification_methods c := by
  cases a with
  | remove_request_routes =>
    simp only [AppServer.step] at hstep
    split at hstep
    · obtain rfl := Option.some.inj hstep
      exact ⟨hc, rfl⟩
    · cases hstep
  | process_initialization c' methods =>
    obtain ⟨⟨-, -, hnot⟩, hstep⟩ := Option.ite_none_right_eq_some.mp hstep
    obtain rfl := Option.some.inj hstep
    refine ⟨hc, Function.update_of_ne ?_ ..⟩
    rintro rfl
    rw [hnot] at hc
    cases hc
  | store_initialized =>
    simp only [AppServer.step] at hstep
    split at hstep
    · next c' _ =>
      obtain rfl := Option.some.inj hstep
      refine ⟨?_, rfl⟩
      dsimp only
      by_cases hcc : c = c'
      · rw [hcc, Function.update_self]
      · rw [Function.update_of_ne hcc]
        exact hc
    · cases hstep
  | control_event =>
    obtain ⟨-, hstep⟩ := Option.ite_none_right_eq_some.mp hstep
    split at hstep
    · cases hstep
    · obtain rfl := Option.some.inj hstep
      exact ⟨hc, rfl⟩
    · obtain rfl := Option.some.inj hstep
      exact ⟨hc, rfl⟩
  | receive order =>
    obtain ⟨-, hstep⟩ := Option.ite_none_right_eq_some.mp hstep
    split at hstep
    · cases hstep
    · obtain rfl := Option.some.inj hstep
      exact ⟨hc, rfl⟩
  | check_target =>
    simp only [AppServer.step] at hstep
    split at hstep
    · obtain rfl := Option.some.inj hstep
      exact ⟨hc, rfl⟩
    · cases hstep
  | write_target ok =>
    simp only [AppServer.step] at hstep
    split at hstep
    · split_ifs at hstep
      · obtain rfl := Option.some.inj hstep
        exact ⟨hc, rfl⟩
      · obtain rfl := Option.some.inj hstep
        exact ⟨hc, rfl⟩
    · cases hstep
  | overload c' id =>
    obtain rfl := Option.some.inj hstep
    exact ⟨hc, rfl⟩
  | _ =>
    obtain ⟨-, hstep⟩ := Option.ite_none_right_eq_some.mp hstep
    obtain rfl := Option.some.inj hstep
    exact ⟨hc, rfl⟩

/-- What is written after the state is no notification that the connection opted out of. -/
def Heeded (s t : AppServer V) (c : ConnectionId) : Prop :=
  ∃ new, t.written c = s.written c ++ new ∧ ∀ method params,
    .routed (.Notification method params) ∈ new → method ∉ s.opted_out_notification_methods c

theorem Told.heeded_step (h : Told s) {a : ServerAction V} (hstep : s.step a = some t)
    (hc : s.initialized c = true) : Heeded s t c := by
  rcases step_written hstep with heq | ⟨c', id, heq⟩ | ⟨r, hr, c', hc', heq⟩
  · exact ⟨[], by rw [heq, List.append_nil], by simp⟩
  · unfold Heeded
    rw [heq]
    by_cases hcc : c = c'
    · subst hcc
      exact ⟨[.overloaded id], Function.update_self .., by simp⟩
    · refine ⟨[], ?_, by simp⟩
      rw [List.append_nil]
      exact Function.update_of_ne hcc ..
  · unfold Heeded
    rw [heq]
    by_cases hcc : c = c'
    · subst hcc
      refine ⟨[.routed r.message], Function.update_self .., fun method params hm => ?_⟩
      have hskip := (h.found r hr c hc').2 hc
      obtain heq : OutgoingMessage.Notification method params = r.message := by simpa using hm
      rw [← heq] at hskip
      simpa [should_skip_notification_for_connection] using hskip
    · refine ⟨[], ?_, by simp⟩
      rw [List.append_nil]
      exact Function.update_of_ne hcc ..

end AppServer

/-- In any run of the server a client gets nothing but answers to its own requests and requests to
itself before it is initialized, and from then on no notification that it opted out of. -/
theorem clients_are_spared (stdio : Bool) (earlier later : List (ServerAction V))
    (s t : AppServer V) (hearlier : earlier.foldlM AppServer.step (.start stdio) = some s)
    (hlater : later.foldlM AppServer.step s = some t) (c : ConnectionId) :
    (s.initialized c = false → ∀ message ∈ s.routed c,
      message.is_notification = false ∧ OnlyFor s.asked s.sent c message) ∧
    (s.initialized c = true → ∃ new, t.written c = s.written c ++ new ∧ ∀ method params,
      .routed (.Notification method params) ∈ new →
        method ∉ s.opted_out_notification_methods c) := by
  obtain ⟨hs, htold⟩ := AppServer.told_run hearlier
  constructor
  · intro hc message hm
    have hown := htold.before c hc message hm
    refine ⟨?_, hown⟩
    by_contra hnotification
    rw [htold.notification hown (by simpa using hnotification)] at hc
    cases hc
  · intro hc
    let kept (t : AppServer V) : Prop :=
      t.Routed ∧ t.Told ∧ t.initialized c = true ∧
        t.opted_out_notification_methods c = s.opted_out_notification_methods c ∧ s.Heeded t c
    have hkept : kept t := by
      refine run_invariant (I := kept) ?_ ⟨hs, htold, hc, rfl, [], by simp, by simp⟩ hlater
      rintro u a u' ⟨hu, htold, hc, hopted, new, hnew, hheeded⟩ hstep
      obtain ⟨hc', hopted'⟩ := AppServer.step_initialized hstep hc
      obtain ⟨one, hone, hspared⟩ := htold.heeded_step hstep hc
      refine ⟨hu.step hstep, htold.step hu hstep, hc', hopted'.trans hopted, new ++ one, ?_, ?_⟩
      · rw [hone, hnew, List.append_assoc]
      · intro method params hm
        rcases List.mem_append.mp hm with hbefore | hlast
        · exact hheeded method params hbefore
        · rw [← hopted]
          exact hspared method params hlast
    exact hkept.2.2.2.2

/-- A client that does not want to hear about noise. The broadcast before its initialization and the
noise after it do not reach it. -/
def noise : List (ServerAction Nat) :=
  [.connection_opened 1, .control_event, .send (.send_notification "news".toList none),
    .receive [1], .check_target, .request 1 (.Integer 0), .send (.send_response 1 0 5),
    .process_initialization 1 ["noise".toList], .receive [1], .check_target, .write_target true,
    .store_initialized]

def more_noise : List (ServerAction Nat) :=
  [.send (.send_notification "noise".toList none), .send (.send_notification "news".toList none),
    .receive [1], .check_target, .receive [1], .check_target, .write_target true]

theorem noise_spared :
    ∃ s t, noise.foldlM AppServer.step (.start false) = some s ∧
      more_noise.foldlM AppServer.step s = some t ∧
      s.routed 1 = [.Response (.Integer 0) 5] ∧
      t.routed 1 = [.Response (.Integer 0) 5, .Notification "news".toList none] ∧
      s.Heeded t 1 := by
  obtain ⟨s, hs⟩ : ∃ s, noise.foldlM AppServer.step (.start false) = some s := ⟨_, rfl⟩
  obtain ⟨t, ht⟩ : ∃ t, more_noise.foldlM AppServer.step s = some t := by
    obtain rfl := Option.some.inj hs
    exact ⟨_, rfl⟩
  have hspared := clients_are_spared false noise more_noise s t hs ht 1
  obtain rfl := Option.some.inj hs
  obtain rfl := Option.some.inj ht
  exact ⟨_, _, rfl, rfl, rfl, rfl, hspared.2 rfl⟩

end Ecode.app_server
