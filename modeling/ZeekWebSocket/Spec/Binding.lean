import ZeekWebSocket.Spec.Message

/-! The protocol wrapper without I/O: messages go in, events and outgoing data come out.
A call that reaches an `unreachable!()` or a failed `expect` panics. -/

namespace ZWS

open Base

inductive ProtocolError where
  | ackExpected
  | alreadySubscribed
  | zeekError (code context : String)
  | unexpectedEventPayload (v : Value)
  | deserializationError (e : DeserializationError)

inductive State where
  | subscribing
  | subscribed
  deriving DecidableEq

/-- Receiving side of a binding. -/
structure Inbox where
  messages : List Message

/-- Sending side of a binding. -/
structure Outbox where
  frames : List Frame

namespace Inbox

def handle (i : Inbox) (message : Message) : Inbox := ⟨i.messages ++ [message]⟩

def nextMessage (i : Inbox) : Option Message × Inbox :=
  match i.messages with
  | [] => (none, i)
  | m :: ms => (some m, ⟨ms⟩)

/-- Messages that are no events are discarded on the way to the next event. -/
def nextEventOf : List Message → Option (String × Event) × Inbox
  | [] => (none, ⟨[]⟩)
  | .dataMessage topic (.event event) :: ms => (some (topic, event), ⟨ms⟩)
  | _ :: ms => nextEventOf ms

def nextEvent (i : Inbox) : Option (String × Event) × Inbox := nextEventOf i.messages

end Inbox

namespace Outbox

def nextData (o : Outbox) : Option ByteArray × Outbox :=
  match o.frames with
  | [] => (none, o)
  | f :: fs => (some f.intoData, ⟨fs⟩)

def enqueue {ε : Type} (P : Platform) (o : Outbox) (message : Message) : Outcome ε Outbox := do
  let frame ← message.toFrame P
  pure ⟨o.frames ++ [frame]⟩

def enqueueEvent {ε : Type} (P : Platform) (o : Outbox) (topic : String) (event : Event) :
    Outcome ε Outbox :=
  o.enqueue P (.newData topic event)

end Outbox

structure Binding where
  state : State
  inbox : Inbox
  outbox : Outbox

namespace Binding

def new (P : Platform) (subscriptions : Subscriptions) : Binding where
  state := .subscribing
  inbox := ⟨[]⟩
  outbox := ⟨[subscriptions.toFrame P]⟩

def handleIncoming (b : Binding) (message : Message) : Except ProtocolError Unit × Binding :=
  match message with
  | .ack _ _ =>
    match b.state with
    | .subscribing => (.ok (), { b with state := .subscribed })
    | .subscribed => (.error .alreadySubscribed, b)
  | .dataMessage _ (.other unexpected) => (.error (.unexpectedEventPayload unexpected), b)
  | message => (.ok (), { b with inbox := b.inbox.handle message })

/-- Get next data enqueued for sending. -/
def outgoing (b : Binding) : Option ByteArray × Binding :=
  let (data, outbox) := b.outbox.nextData
  (data, { b with outbox := outbox })

def receiveEvent (b : Binding) : Outcome ProtocolError (Option (String × Event)) × Binding :=
  let (message, inbox) := b.inbox.nextMessage
  let b := { b with inbox := inbox }
  match message with
  | some (.dataMessage topic (.event event)) => (.ok (some (topic, event)), b)
  | some (.dataMessage _ (.other _)) => (.panic, b) -- rejected in `handle_incoming`
  | some (.error code context) => (.err (.zeekError code context), b)
  | some (.ack _ _) => (.panic, b) -- never forwarded from `handle_incoming`
  | none => (.ok none, b)

-- both arms of the source put the message into the outbox as it is
def enqueue {ε : Type} (P : Platform) (b : Binding) (message : Message) : Outcome ε Binding := do
  let outbox ← b.outbox.enqueue P message
  pure { b with outbox := outbox }

def publishEvent {ε : Type} (P : Platform) (b : Binding) (topic : String) (event : Event) :
    Outcome ε Binding :=
  b.enqueue P (.newData topic event)

def split (b : Binding) : Inbox × Outbox := (b.inbox, b.outbox)

end Binding

/-- A call on a binding. -/
inductive Call where
  | handleIncoming (message : Message)
  | receiveEvent
  | publishEvent (topic : String) (event : Event)
  | outgoing

/-- A call with what it returned. -/
inductive Step where
  | handleIncoming (message : Message) (r : Except ProtocolError Unit)
  | receiveEvent (r : Except ProtocolError (Option (String × Event)))
  | publishEvent (topic : String) (event : Event)
  | outgoing (data : Option ByteArray)

def Step.call : Step → Call
  | .handleIncoming message _ => .handleIncoming message
  | .receiveEvent _ => .receiveEvent
  | .publishEvent topic event => .publishEvent topic event
  | .outgoing _ => .outgoing

namespace Binding

def step (P : Platform) (b : Binding) : Call → Outcome Empty (Step × Binding)
  | .handleIncoming message =>
    .ok (.handleIncoming message (b.handleIncoming message).1, (b.handleIncoming message).2)
  | .receiveEvent =>
    match b.receiveEvent with
    | (.ok r, b) => .ok (.receiveEvent (.ok r), b)
    | (.err e, b) => .ok (.receiveEvent (.error e), b)
    | (.panic, _) => .panic
  | .publishEvent topic event => do
    let b ← b.publishEvent P topic event
    pure (.publishEvent topic event, b)
  | .outgoing => .ok (.outgoing b.outgoing.1, b.outgoing.2)

/-- A sequence of calls. -/
def run (P : Platform) (b : Binding) : List Call → Outcome Empty (List Step × Binding)
  | [] => .ok ([], b)
  | c :: cs => do
    let (s, b) ← b.step P c
    let (trace, b) ← b.run P cs
    pure (s :: trace, b)

end Binding

end ZWS
