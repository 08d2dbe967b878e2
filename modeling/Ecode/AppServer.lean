-- How the app server serves many connections (app-server/src/lib.rs, transport.rs): requests get
-- ids of the server's own, everything that goes out passes one queue, and a router task writes it
-- to the connections.
import Ecode.Firsts
import Ecode.KeyedLists
import Ecode.Runs
import Ecode.OutgoingMessages

namespace Ecode.app_server

open runs repeats

/-! ## Ids of requests -/

def INTERNAL_REQUEST_ID_PREFIX : Text := "__code_internal_request__".toList

/-- The id under which the processor sees a request. -/
def internal_request_id (connection_id : ConnectionId) (ordinal : Nat) : RequestId :=
  .String (INTERNAL_REQUEST_ID_PREFIX ++ (Text.ofNat connection_id ++ ':' :: Text.ofNat ordinal))

def is_internal_request_id : RequestId → Bool
  | .String value => Text.starts_with value INTERNAL_REQUEST_ID_PREFIX
  | .Integer _ => false

structure RequestRoute where
  connection_id : ConnectionId
  original_request_id : RequestId
  deriving DecidableEq, Repr

/-- A map from internal ids. -/
abbrev RequestRoutes := List (RequestId × RequestRoute)

/-- An answer goes to the connection that asked, under the id that it asked with, and only once. -/
def rewrite_response_routing {V : Type} (envelope : OutgoingEnvelope V)
    (request_routes : RequestRoutes) : Option (OutgoingEnvelope V) × RequestRoutes :=
  match envelope with
  | .Broadcast (.Response id result) =>
    match keyed.get Prod.fst request_routes id with
    | some (_, route) =>
      (some (.ToConnection route.connection_id (.Response route.original_request_id result)),
        keyed.erase Prod.fst request_routes id)
    | none =>
      if is_internal_request_id id then (none, request_routes) else (some envelope, request_routes)
  | .Broadcast (.Error id error) =>
    match keyed.get Prod.fst request_routes id with
    | some (_, route) =>
      (some (.ToConnection route.connection_id (.Error route.original_request_id error)),
        keyed.erase Prod.fst request_routes id)
    | none =>
      if is_internal_request_id id then (none, request_routes) else (some envelope, request_routes)
  | _ => (some envelope, request_routes)

def remove_request_routes_for_connection (request_routes : RequestRoutes)
    (connection_id : ConnectionId) : RequestRoutes :=
  request_routes.filter fun entry => entry.2.connection_id != connection_id

/-! ## What is sent -/

/-- The calls of `OutgoingMessageSender` that queue an envelope. An answer goes out under the
internal id of its request. -/
inductive Sent (V : Type) where
  | send_response (connection_id : ConnectionId) (ordinal : Nat) (result : V)
  | send_error (connection_id : ConnectionId) (ordinal : Nat) (error : JSONRPCErrorError V)
  | send_request (connection_id : Option ConnectionId) (id : RequestId) (method : Text)
      (params : Option V)
  | send_notification (method : Text) (params : Option V)
  | send_notification_to_connection (connection_id : ConnectionId) (method : Text)
      (params : Option V)
  deriving DecidableEq, Repr

namespace Sent

variable {V : Type}

def envelope : Sent V → OutgoingEnvelope V
  | send_response c n result => .Broadcast (.Response (internal_request_id c n) result)
  | send_error c n error => .Broadcast (.Error (internal_request_id c n) error)
  | send_request owner id method params => request_envelope owner id method params
  | send_notification method params => .Broadcast (.Notification method params)
  | send_notification_to_connection c method params =>
    .ToConnection c (.Notification method params)

/-- The request that is answered. -/
def answers : Sent V → Option (ConnectionId × Nat)
  | send_response c n _ => some (c, n)
  | send_error c n _ => some (c, n)
  | _ => none

end Sent

/-! ## The server -/

inductive OutboundControlEvent where
  | Opened (connection_id : ConnectionId)
  | Closed (connection_id : ConnectionId)
  deriving DecidableEq, Repr

/-- An envelope on its way through `route_outgoing_envelope`: the connections that are still to be
looked at, and those that were found to be its targets. -/
structure Routing (V : Type) where
  message : OutgoingMessage V
  broadcast : Bool
  to_check : List ConnectionId
  targets : List ConnectionId
  deriving DecidableEq, Repr

/-- What the writer of a connection was given: by the router, or by the reader of the connection
when the server takes no more requests. -/
inductive Delivery (V : Type) where
  | routed (message : OutgoingMessage V)
  | overloaded (id : RequestId)
  deriving DecidableEq, Repr

def Delivery.message? {V : Type} : Delivery V → Option (OutgoingMessage V)
  | routed message => some message
  | overloaded _ => none

/-- Where the loop of the processor is. -/
inductive Stage where
  | receiving
  | initializing (connection_id : ConnectionId)
  | closing (connection_id : ConnectionId)
  | stopped
  deriving DecidableEq, Repr

structure AppServer (V : Type) where
  /-- Of a stdio server, which has one client. -/
  shutdown_when_no_connections : Bool
  connections : List ConnectionId
  stage : Stage
  /-- All connections there ever were, and all requests: the next request gets their number. -/
  opened : List ConnectionId
  asked : List (ConnectionId × RequestId)
  initialized : ConnectionId → Bool
  opted_out_notification_methods : ConnectionId → List Text
  request_routes : RequestRoutes
  control : List OutboundControlEvent
  /-- Everything that was queued, and how much of it the router has received. -/
  sent : List (Sent V)
  received : Nat
  outbound_connections : List ConnectionId
  routing : Option (Routing V)
  written : ConnectionId → List (Delivery V)

inductive ServerAction (V : Type) where
  /-- The processor. -/
  | connection_opened (c : ConnectionId)
  | connection_closed (c : ConnectionId)
  | remove_request_routes
  | request (c : ConnectionId) (id : RequestId)
  | process_initialization (c : ConnectionId) (opt_out_notification_methods : List Text)
  | store_initialized
  /-- The processor and the tasks that serve requests. -/
  | send (m : Sent V)
  /-- The router. The connections of a broadcast come in any order. -/
  | control_event
  | receive (order : List ConnectionId)
  | check_target
  | write_target (ok : Bool)
  /-- The reader of a connection. -/
  | overload (c : ConnectionId) (id : RequestId)
  deriving DecidableEq, Repr

namespace AppServer

variable {V : Type}

def start (shutdown_when_no_connections : Bool) : AppServer V where
  shutdown_when_no_connections := shutdown_when_no_connections
  connections := []
  stage := .receiving
  opened := []
  asked := []
  initialized := fun _ => false
  opted_out_notification_methods := fun _ => []
  request_routes := []
  control := []
  sent := []
  received := 0
  outbound_connections := []
  routing := none
  written := fun _ => []

/-- The router is done with the envelope it received last. -/
def router_idle (s : AppServer V) : Prop :=
  ∀ r ∈ s.routing, r.to_check = [] ∧ r.targets = []

instance (s : AppServer V) : Decidable s.router_idle :=
  inferInstanceAs (Decidable (∀ r ∈ s.routing, r.to_check = [] ∧ r.targets = []))

/-- `wait_for_request_routes_for_connection` is over. -/
def no_request_routes (s : AppServer V) (c : ConnectionId) : Bool :=
  !s.request_routes.any fun entry => entry.2.connection_id == c

/-- Answers are to requests that were received. The processor and the listener of a conversation
send notifications to a connection only once it is initialized. -/
def may_send (s : AppServer V) : Sent V → Prop
  | .send_response c n _ => ∃ r ∈ s.asked[n]?, r.1 = c
  | .send_error c n _ => ∃ r ∈ s.asked[n]?, r.1 = c
  | .send_notification_to_connection c _ _ => s.initialized c = true
  | _ => True

instance (s : AppServer V) : (m : Sent V) → Decidable (s.may_send m)
  | .send_response c n _ => inferInstanceAs (Decidable (∃ r ∈ s.asked[n]?, r.1 = c))
  | .send_error c n _ => inferInstanceAs (Decidable (∃ r ∈ s.asked[n]?, r.1 = c))
  | .send_notification_to_connection c _ _ =>
    inferInstanceAs (Decidable (s.initialized c = true))
  | .send_request .. => inferInstanceAs (Decidable True)
  | .send_notification .. => inferInstanceAs (Decidable True)

def should_skip_notification_for_connection (s : AppServer V) (c : ConnectionId) :
    OutgoingMessage V → Bool
  | .Notification method _ => (s.opted_out_notification_methods c).contains method
  | _ => false

/-- A connection that the router knows is a target of a broadcast once it is initialized. -/
def is_target (s : AppServer V) (r : Routing V) (c : ConnectionId) : Bool :=
  s.outbound_connections.contains c && (!r.broadcast || s.initialized c) &&
    !s.should_skip_notification_for_connection c r.message

def deliver (s : AppServer V) (c : ConnectionId) (d : Delivery V) : ConnectionId → List (Delivery V) :=
  Function.update s.written c (s.written c ++ [d])

/-- What the router holds after `rewrite_response_routing`. -/
def routing_of (order : List ConnectionId) : Option (OutgoingEnvelope V) → Option (Routing V)
  | none => none
  | some (.ToConnection c message) => some ⟨message, false, [c], []⟩
  | some (.Broadcast message) => some ⟨message, true, order, []⟩

def step (s : AppServer V) : ServerAction V → Option (AppServer V)
  | .connection_opened c =>
    if s.stage = .receiving ∧ c ∉ s.opened then
      some { s with
        opened := c :: s.opened
        control := s.control ++ [.Opened c]
        connections := s.connections.insert c }
    else none
  | .connection_closed c =>
    if s.stage = .receiving ∧ c ∈ s.opened ∧
        (!s.shutdown_when_no_connections || s.no_request_routes c) then
      some { s with
        stage := .closing c
        control := s.control ++ [.Closed c]
        connections := s.connections.filter (· ≠ c) }
    else none
  | .remove_request_routes =>
    match s.stage with
    | .closing c =>
      some { s with
        stage :=
          if s.shutdown_when_no_connections && s.connections.isEmpty then .stopped else .receiving
        request_routes := remove_request_routes_for_connection s.request_routes c }
    | _ => none
  | .request c id =>
    if s.stage = .receiving ∧ c ∈ s.connections then
      some { s with
        asked := s.asked ++ [(c, id)]
        request_routes := keyed.insert Prod.fst s.request_routes
          (internal_request_id c s.asked.length, ⟨c, id⟩) }
    else none
  | .process_initialization c methods =>
    if s.stage = .receiving ∧ c ∈ s.connections ∧ s.initialized c = false then
      some { s with
        stage := .initializing c
        opted_out_notification_methods :=
          Function.update s.opted_out_notification_methods c methods }
    else none
  | .store_initialized =>
    match s.stage with
    | .initializing c =>
      some { s with stage := .receiving, initialized := Function.update s.initialized c true }
    | _ => none
  | .send m => if s.may_send m then some { s with sent := s.sent ++ [m] } else none
  | .control_event =>
    if s.router_idle then
      match s.control with
      | [] => none
      | .Opened c :: rest =>
        some { s with control := rest, outbound_connections := s.outbound_connections.insert c }
      | .Closed c :: rest =>
        some { s with
          control := rest
          outbound_connections := s.outbound_connections.filter (· ≠ c) }
    else none
  | .receive order =>
    if s.router_idle ∧ order.Perm s.outbound_connections then
      match s.sent[s.received]? with
      | none => none
      | some m =>
        let rewritten := rewrite_response_routing m.envelope s.request_routes
        some { s with
          received := s.received + 1
          request_routes := rewritten.2
          routing := routing_of order rewritten.1 }
    else none
  | .check_target =>
    match s.routing with
    | some ⟨message, broadcast, c :: to_check, targets⟩ =>
      some { s with
        routing := some ⟨message, broadcast, to_check,
          if s.is_target ⟨message, broadcast, c :: to_check, targets⟩ c then targets ++ [c]
          else targets⟩ }
    | _ => none
  | .write_target ok =>
    match s.routing with
    | some ⟨message, broadcast, [], c :: targets⟩ =>
      -- A write fails when the writer is gone, or full and the client is cut off.
      if ok then
        some { s with
          routing := some ⟨message, broadcast, [], targets⟩
          written := s.deliver c (.routed message) }
      else
        some { s with
          routing := some ⟨message, broadcast, [], targets⟩
          outbound_connections := s.outbound_connections.filter (· ≠ c) }
    | _ => none
  | .overload c id => some { s with written := s.deliver c (.overloaded id) }

end AppServer

end Ecode.app_server
