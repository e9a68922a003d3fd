import ZeekWebSocket.Spec.CValue
import ZeekWebSocket.Spec.Serve

/-! The client of the C API: what it makes of its arguments, and the calls on the two callbacks it
was given. The task that it spawns reads some of the strings of the program later. -/

namespace ZWS.C

open Base

inductive ClientError where
  | runtime
  | invalidUri
  | invalidTopic
  | unexpectedMessage
  | transport
  | zeek
  deriving DecidableEq

/-- A call on one of the two callbacks. -/
inductive Call where
  | receive (topic : String) (event : Event)
  | error (code : ClientError) (context : String)

/-- What the client runs on. -/
structure Host where
  platform : Platform
  debug : Message → String
  /-- the `Display` of the error -/
  display : DeserializationError → String
  parseUri : String → Except String Unit
  buildRuntime : Except String Unit

/-- The arguments of `zws_client_new`; the size in `config` is documented to be non-zero. -/
structure Args (m : Memory) where
  appName : CStr m
  uri : CStr m
  topics : List (CStr m)
  config : Option ServiceConfig

/-- What the spawned task is given. The strings are still those of the program. -/
structure Task where
  appName : Str
  subscriptions : List Str
  config : ServiceConfig

def nul : Char := Char.ofNat 0

/-- `s.split('\0').next().unwrap_or(s)`. -/
def safeString (s : String) : String := String.ofList ((s.toList.splitOn nul).headD s.toList)

/-- `From<&ProtocolError>`. -/
def ClientError.ofProtocol : ProtocolError → ClientError
  | .zeekError _ _ => .zeek
  | .ackExpected => .unexpectedMessage
  | .deserializationError _ => .unexpectedMessage
  | .unexpectedEventPayload _ => .unexpectedMessage
  | .alreadySubscribed => .transport

def ClientError.ofClient : Client.Error → ClientError
  | .transport _ => .transport
  | .protocolError e => .ofProtocol e

namespace Host

variable (h : Host)

def protocolText : ProtocolError → String
  | .ackExpected => "received an ACK while already subscribed"
  | .alreadySubscribed => "received an ACK while already subscribed"
  | .zeekError code context => "Zeek error " ++ code ++ ": " ++ context
  | .unexpectedEventPayload _ => "unexpected event payload received"
  | .deserializationError e => "could not deserialize message: " ++ h.display e

def clientText : Client.Error → String
  | .transport text => "failure in websocket transport: " ++ text
  | .protocolError e => "protocol-related error: " ++ h.protocolText e

/-- `Inner` as a `ZeekClient`. -/
def inner : Callback → Option Call
  | .connected _ _ => none
  | .event topic event => some (.receive (safeString topic) event)
  | .error e => some (.error (.ofProtocol e) (safeString (h.protocolText e)))

/-- The call made when `serve` returns. -/
def final : Phase → Option Call
  | .finished (.error e) => some (.error (.ofClient e) (safeString (h.clientText e)))
  | _ => none

/-- The calls that the program has seen. -/
def calls (s : Service) : List Call := s.callbacks.filterMap h.inner ++ (h.final s.phase).toList

/-- `zws_client_new`: the task it spawns, and the calls made meanwhile. -/
def new {m : Memory} (a : Args m) : Option Task × List Call :=
  match a.appName.toStr with
  | none => (none, [])
  | some appName =>
    match a.topics.mapM CStr.toStr with
    | none => (none, [.error .invalidTopic "one or more topic names include invalid UTF-8"])
    | some subscriptions =>
      match a.uri.text with
      | none => (none, [.error .invalidUri "uri cannot contain literal NULL"])
      | some uri =>
        match h.parseUri uri with
        | .error e => (none, [.error .invalidUri (safeString ("invalid uri: " ++ e))])
        | .ok () =>
          match h.buildRuntime with
          | .error e =>
            (none, [.error .runtime (safeString ("could not start background thread: " ++ e))])
          | .ok () => (some ⟨appName, subscriptions, a.config.getD .default⟩, [])

/-- What the task serves with. It reads the name of the application when it starts, and the topics
once it is connected. Its callbacks cannot wait for an outbox. -/
def setup (t : Task) (started connected : Memory) : Option Setup := do
  let _ ← started.text t.appName
  let topics ← t.subscriptions.mapM connected.text
  some {
    platform := h.platform
    config := t.config
    subscriptions := ⟨topics⟩
    sends := fun _ => []
    debug := h.debug }

end Host

/-- `zws_client_publish`, which blocks while there is no room. On a thread of the runtime, where the
callbacks are called, `block_on` panics. -/
def publish (c : Setup) (s : Service) (inCallback : Bool) {m : Memory} (topic : CStr m) (event : Event) :
    Option (Outcome Empty (Bool × Service)) :=
  match topic.text with
  | none => some (.ok (false, s))
  | some topic =>
    if inCallback then some .panic
    else if s.phase.listens then (s.step c (.accept topic event)).map fun s => .ok (true, s)
    else some (.ok (false, s))

end ZWS.C
