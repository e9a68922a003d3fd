import ZeekWebSocket.Spec.Serve

/-! The mock server that tests run against, and the closed system of one service, one mock server
and the two directions of the connection between them. -/

namespace ZWS

open Base

namespace Subscriptions

/-- The derived `Deserialize` of a newtype is that of the `Vec<String>` in it. -/
def decode : Json → Outcome DecodeError Subscriptions
  | .arr js => do
    let topics ← js.mapM Message.readString
    pure ⟨topics⟩
  | _ => .err .invalidType

def fromBytes (P : Platform) (bytes : ByteArray) : Outcome DeserializationError Subscriptions :=
  match P.parseJson bytes with
  | none => .err (.json .syntaxError)
  | some j => (decode j).mapErr fun e => .json (.data e)

/-- `TryFrom<tungstenite::Message>`. -/
def ofFrame (P : Platform) : Frame → Outcome DeserializationError Subscriptions
  | .text txt => fromBytes P txt.toUTF8
  | .binary bin => fromBytes P bin
  | x => .err (.unexpectedMessageType x)

end Subscriptions

namespace MockServer

def ack : Message := .ack "mock-server" "0.0.1"

/-- What the loop over `ws.next()` makes of a message: the subscriptions after it and what is sent. -/
def handle (P : Platform) (subscriptions : List String) (msg : Frame) :
    Outcome Empty (List String × Option Frame) :=
  match Subscriptions.ofFrame P msg with
  | .ok sub => do
    let frame ← ack.toFrame P
    pure (sub.topics, some frame)
  | .panic => .panic
  | .err _ =>
    match Message.ofFrame P msg with
    | .ok (.dataMessage topic (.event event)) =>
      if topic ∉ subscriptions then pure (subscriptions, none)
      else if event.name = "echo" then do
        let frame ← (Message.newData topic (.new event.name event.args)).toFrame P
        pure (subscriptions, some frame)
      else pure (subscriptions, none)
    | .panic => .panic
    | _ => pure (subscriptions, none)

/-- The subscriptions of a server that has not left its loop, and what it sends. -/
def serve (P : Platform) : Option (List String) → Frame → Option (List String) × List Frame
  | none, _ => (none, [])
  | some subscriptions, msg =>
    match handle P subscriptions msg with
    | .ok (subscriptions, frame) => (some subscriptions, frame.toList)
    | _ => (none, [])

end MockServer

/-- A service and a server with the frames on their way. The rest is history: what the server has
read and what it has sent. -/
structure Exchange where
  service : Service
  server : Option (List String)
  upstream : List Frame
  downstream : List Frame
  heard : List Frame
  answers : List Frame

namespace Exchange

inductive Label where
  /-- a step of the service that reads no frame; a frame whose `send` failed may still arrive -/
  | service (a : Action) (arrives : Bool)
  /-- the service reads a frame of the server -/
  | deliver
  /-- the server reads a frame, and `ws.send` of its answer returns -/
  | serve (r : Except String Unit) (arrives : Bool)
  /-- the server has nothing more to read -/
  | leave

def new (c : Setup) : Exchange where
  service := .new c
  server := some []
  upstream := []
  downstream := []
  heard := []
  answers := []

/-- Frames that are under way although sending them may have failed. -/
def carried (r : Except String Unit) (arrives : Bool) (frames : List Frame) : List Frame :=
  match r with
  | .ok () => frames
  | .error _ => if arrives then frames else []

def result : Action → Except String Unit
  | .send r => r
  | _ => .ok ()

/-- A step other than the reading of a frame. -/
def stepService (c : Setup) (w : Exchange) (a : Action) (arrives : Bool) : Option Exchange :=
  match a with
  | .next (some (.ok _)) => none
  | a => do
    let service ← w.service.step c a
    let sent := service.handed.drop w.service.handed.length
    pure { w with service := service, upstream := w.upstream ++ carried (result a) arrives sent }

def deliver (c : Setup) (w : Exchange) : Option Exchange :=
  match w.downstream with
  | [] => none
  | frame :: downstream => do
    let service ← w.service.step c (.next (some (.ok frame)))
    pure { w with service := service, downstream := downstream }

/-- The server leaves its loop when it cannot send. -/
def serve (c : Setup) (w : Exchange) (r : Except String Unit) (arrives : Bool) : Option Exchange :=
  match w.server, w.upstream with
  | some subscriptions, msg :: upstream =>
    let (server, frames) := MockServer.serve c.platform (some subscriptions) msg
    let sent := carried r arrives frames
    some { w with
      server := if r.isOk || frames.isEmpty then server else none
      upstream := upstream
      downstream := w.downstream ++ sent
      heard := w.heard ++ [msg]
      answers := w.answers ++ sent }
  | _, _ => none

def step (c : Setup) (w : Exchange) : Label → Option Exchange
  | .service a arrives => w.stepService c a arrives
  | .deliver => w.deliver c
  | .serve r arrives => w.serve c r arrives
  | .leave => some { w with server := none }

/-- The system after a sequence of labels. -/
def Reaches (c : Setup) (ls : List Label) (w : Exchange) : Prop := Run (step c) (new c) ls w

end Exchange

end ZWS
