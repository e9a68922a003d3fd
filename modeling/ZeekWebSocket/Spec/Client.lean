import ZeekWebSocket.Library.Run
import ZeekWebSocket.Spec.Binding

/-! The Python wrapper of the binding and the synchronous client over it. What the WebSocket
connection does is input: whether it comes about, how many sends it takes before one raises,
and what `recv` returns. -/

namespace ZWS.Python

open Base

/-- What a call raises. The first three are `RuntimeError`s: "data payload not understood",
"failed to handle message" and "failed to receive event". -/
inductive PyErr where
  | notUnderstood (e : DeserializationError)
  | notHandled (e : ProtocolError)
  | notReceived (e : ProtocolError)
  /-- `PanicException`, where the library panics. -/
  | panic
  /-- Raised by the connection: closed, timed out, or never opened. -/
  | connection

namespace ProtocolBinding

def handleIncoming (P : Platform) (b : Binding) (data : ByteArray) : Except PyErr Unit × Binding :=
  match Message.fromBytes P data with
  | .err e => (.error (.notUnderstood e), b)
  | .panic => (.error .panic, b)
  | .ok message =>
    match b.handleIncoming message with
    | (.ok (), b) => (.ok (), b)
    | (.error e, b) => (.error (.notHandled e), b)

def publishEvent (P : Platform) (b : Binding) (topic : String) (event : Event) :
    Except PyErr Unit × Binding :=
  match (b.publishEvent P topic event : Outcome Empty Binding) with
  | .ok b => (.ok (), b)
  | .panic => (.error .panic, b)

def receiveEvent (b : Binding) : Except PyErr (Option (String × Event)) × Binding :=
  match b.receiveEvent with
  | (.ok r, b) => (.ok r, b)
  | (.err e, b) => (.error (.notReceived e), b)
  | (.panic, b) => (.error .panic, b)

end ProtocolBinding

structure Client where
  binding : Binding

namespace Client

/-- `while data := self._binding.outgoing(): self._conn.send(data)`, where the connection takes
`sends` frames. Each turn takes a frame away, and an empty one ends the loop. -/
def flush (fuel sends : ℕ) (b : Binding) : Except PyErr Unit × Binding :=
  match fuel with
  | 0 => (.ok (), b)
  | fuel + 1 =>
    match b.outgoing with
    | (none, b) => (.ok (), b)
    | (some data, b) =>
      if data.isEmpty then (.ok (), b)
      else
        match sends with
        | 0 => (.error .connection, b)
        | sends + 1 => flush fuel sends b

/-- A call of `send`, and whether it returned. -/
structure Sent where
  data : ByteArray
  returned : Bool

/-- The calls of `send` in `flush`. -/
def flushed (fuel sends : ℕ) (b : Binding) : List Sent :=
  match fuel with
  | 0 => []
  | fuel + 1 =>
    match b.outgoing with
    | (none, _) => []
    | (some data, b) =>
      if data.isEmpty then []
      else
        match sends with
        | 0 => [⟨data, false⟩]
        | sends + 1 => ⟨data, true⟩ :: flushed fuel sends b

def flushAll (sends : ℕ) (b : Binding) : Except PyErr Unit × Binding :=
  flush (b.outbox.frames.length + 1) sends b

/-- `Client.__init__`. There is no client if it raises. -/
def init (P : Platform) (topics : List String) (connected : Bool) (sends : ℕ) (recv : Option ByteArray) :
    Except PyErr Client :=
  let b := Binding.new P ⟨topics⟩
  if connected then
    match flushAll sends b with
    | (.error e, _) => .error e
    | (.ok (), b) =>
      match recv with
      | none => .error .connection
      | some ack =>
        match ProtocolBinding.handleIncoming P b ack with
        | (.error e, _) => .error e
        | (.ok (), b) => .ok ⟨b⟩
  else .error .connection

/-- The calls of `send` in `Client.__init__`. -/
def initSent (P : Platform) (topics : List String) (connected : Bool) (sends : ℕ) : List Sent :=
  let b := Binding.new P ⟨topics⟩
  if connected then flushed (b.outbox.frames.length + 1) sends b else []

def publish (P : Platform) (c : Client) (topic : String) (event : Event) (sends : ℕ) :
    Except PyErr Unit × Client :=
  match ProtocolBinding.publishEvent P c.binding topic event with
  | (.error e, b) => (.error e, ⟨b⟩)
  | (.ok (), b) => ((flushAll sends b).1, ⟨(flushAll sends b).2⟩)

/-- The calls of `send` in `publish`. -/
def publishSent (P : Platform) (c : Client) (topic : String) (event : Event) (sends : ℕ) : List Sent :=
  match ProtocolBinding.publishEvent P c.binding topic event with
  | (.error _, _) => []
  | (.ok (), b) => flushed (b.outbox.frames.length + 1) sends b

def receive (P : Platform) (c : Client) (recv : Option ByteArray) :
    Except PyErr (Option (String × Event)) × Client :=
  match recv with
  | none => (.error .connection, c)
  | some data =>
    match ProtocolBinding.handleIncoming P c.binding data with
    | (.error e, b) => (.error e, ⟨b⟩)
    | (.ok (), b) => ((ProtocolBinding.receiveEvent b).1, ⟨(ProtocolBinding.receiveEvent b).2⟩)

/-- What a program does with its client. -/
inductive Call where
  | publish (topic : String) (event : Event) (sends : ℕ)
  | receive (recv : Option ByteArray)

/-- The client after a call, whether it returned or raised. -/
def step (P : Platform) (c : Client) : Call → Client
  | .publish topic event sends => (c.publish P topic event sends).2
  | .receive recv => (c.receive P recv).2

/-- A call that is done: its calls of `send`, the frame it took, and how it ended. -/
inductive Done where
  | published (sent : List Sent) (r : Except PyErr Unit)
  | received (recv : Option ByteArray) (r : Except PyErr (Option (String × Event)))

def done (P : Platform) (c : Client) : Call → Done
  | .publish topic event sends =>
    .published (c.publishSent P topic event sends) (c.publish P topic event sends).1
  | .receive recv => .received recv (c.receive P recv).1

/-- The client after these calls, and what was done. -/
def history (P : Platform) (c : Client) (calls : List Call) : Client × List Done :=
  feed (fun c call => (c.step P call, [c.done P call])) c calls

end Client

end ZWS.Python
