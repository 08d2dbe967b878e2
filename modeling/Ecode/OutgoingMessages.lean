-- What the app server sends to its clients (app-server/src/outgoing_message.rs): messages, where
-- they go, and the callbacks of the requests that wait for a client.
import Ecode.Text

namespace Ecode.app_server

/-! ## Messages -/

/-- The connections of a transport are numbered, and no number is used again. -/
abbrev ConnectionId := Nat

/-- `mcp_types::RequestId`. -/
inductive RequestId where
  | String (id : Text)
  | Integer (id : Int)
  deriving DecidableEq, Repr

/-- `mcp_types::JSONRPCErrorError`, over the JSON values `V`. -/
structure JSONRPCErrorError (V : Type) where
  code : Int
  message : Text
  data : Option V
  deriving DecidableEq, Repr

inductive OutgoingMessage (V : Type) where
  | Request (id : RequestId) (method : Text) (params : Option V)
  | Notification (method : Text) (params : Option V)
  | Response (id : RequestId) (result : V)
  | Error (id : RequestId) (error : JSONRPCErrorError V)
  deriving DecidableEq, Repr

/-- One connection, or all connections that are initialized. -/
inductive OutgoingEnvelope (V : Type) where
  | ToConnection (connection_id : ConnectionId) (message : OutgoingMessage V)
  | Broadcast (message : OutgoingMessage V)
  deriving DecidableEq, Repr

/-! ## Callbacks -/

/-- The sender of a callback belongs to the call `K` that waits for its receiver. -/
structure PendingRequestCallback (K : Type) where
  connection_id : Option ConnectionId
  sender : K
  deriving DecidableEq, Repr

/-- A request that was sent to one connection is answered by this connection, or by a caller that
names none. -/
def PendingRequestCallback.may_answer {K : Type} (pending : PendingRequestCallback K)
    (connection_id : Option ConnectionId) : Bool :=
  pending.connection_id.all fun owner => connection_id.all fun c => owner == c

structure OutgoingMessageSender (K : Type) where
  next_request_id : Int
  request_id_to_callback : RequestId → Option (PendingRequestCallback K)

namespace OutgoingMessageSender

variable {K V : Type}

def new : OutgoingMessageSender K where
  next_request_id := 0
  request_id_to_callback := fun _ => none

/-- The number that `send_request_impl` takes first. -/
def take_request_id (s : OutgoingMessageSender K) : OutgoingMessageSender K × RequestId :=
  ({ s with next_request_id := s.next_request_id + 1 }, .Integer s.next_request_id)

def insert_callback (s : OutgoingMessageSender K) (id : RequestId)
    (pending : PendingRequestCallback K) : OutgoingMessageSender K :=
  { s with request_id_to_callback := Function.update s.request_id_to_callback id (some pending) }

def remove_callback (s : OutgoingMessageSender K) (id : RequestId) : OutgoingMessageSender K :=
  { s with request_id_to_callback := Function.update s.request_id_to_callback id none }

/-- The callback that `notify_client_response_for_connection` and
`notify_client_error_for_connection` take out. -/
def take_callback (s : OutgoingMessageSender K) (connection_id : Option ConnectionId)
    (id : RequestId) : OutgoingMessageSender K × Option K :=
  match s.request_id_to_callback id with
  | some pending =>
    if pending.may_answer connection_id then (s.remove_callback id, some pending.sender)
    else (s, none)
  | none => (s, none)

def clear_callbacks_for_connection (s : OutgoingMessageSender K) (connection_id : ConnectionId) :
    OutgoingMessageSender K :=
  { s with
    request_id_to_callback := fun id =>
      (s.request_id_to_callback id).filter fun pending =>
        pending.connection_id.all fun owner => owner != connection_id }

end OutgoingMessageSender

/-- The envelope of a request. -/
def request_envelope {V : Type} (connection_id : Option ConnectionId) (id : RequestId)
    (method : Text) (params : Option V) : OutgoingEnvelope V :=
  match connection_id with
  | some c => .ToConnection c (.Request id method params)
  | none => .Broadcast (.Request id method params)

end Ecode.app_server
