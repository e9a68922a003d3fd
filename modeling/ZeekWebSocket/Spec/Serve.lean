import ZeekWebSocket.Library.Run
import ZeekWebSocket.Spec.Binding

/-! The service that runs a client against a server, as a machine that moves from one `await`
to the next. What the server, the scheduler and the other holders of an outbox do is in the
labels; what the callbacks send is up to the client. -/

namespace ZWS

open Base

/-- What `serve` fails with. -/
inductive Client.Error where
  | transport (text : String)
  | protocolError (e : ProtocolError)

structure ServiceConfig where
  outboxSize : ℕ
  nonZero : 0 < outboxSize

def ServiceConfig.default : ServiceConfig := ⟨256, by decide⟩

/-- A call on the `ZeekClient`. -/
inductive Callback where
  | connected (endpoint version : String)
  | event (topic : String) (event : Event)
  | error (e : ProtocolError)

/-- What `serve` runs with. `sends` are the awaited `Outbox::send` of the last of the callbacks
made, `debug` is the derived `Debug` of messages. -/
structure Setup where
  platform : Platform
  config : ServiceConfig
  subscriptions : Subscriptions
  sends : List Callback → List (String × Event)
  debug : Message → String

/-- Where `serve` waits for frames. -/
inductive Site where
  | handshake
  | select
  deriving DecidableEq

/-- Where `serve` goes on after a callback. -/
inductive Resume where
  | select
  | drain
  deriving DecidableEq

inductive Phase where
  | connecting
  /-- in the loop over `outgoing` -/
  | flushing (next : Site)
  | waiting (site : Site)
  /-- suspended in a callback that still has to send `todo` -/
  | calling (resume : Resume) (todo : List (String × Event))
  /-- in the loop over `receive_event` -/
  | draining
  | closing
  | finished (r : Except Client.Error Unit)
  | panicked

/-- A service, the channel of its outboxes and how many of these are not dropped. The rest is
history: frames handed to the stream, callbacks made, events that `Outbox::send` accepted, and
frames read during and after the handshake. -/
structure Service where
  phase : Phase
  binding : Binding
  channel : List (String × Event)
  outboxes : ℕ
  handed : List Frame
  callbacks : List Callback
  accepted : List (String × Event)
  greeting : List Frame
  received : List Frame

inductive Action where
  | connect (r : Except String Unit)
  /-- `stream.send` returns -/
  | send (r : Except String Unit)
  /-- `outgoing` has nothing more -/
  | flushed
  /-- `stream.next` returns -/
  | next (r : Option (Except String Frame))
  /-- `rx.recv` returns -/
  | recv
  /-- `receive_event` is called -/
  | drain
  /-- the `Outbox::send` that the callback awaits returns -/
  | callbackSend
  | callbackDone
  /-- an `Outbox::send` from elsewhere is accepted -/
  | accept (topic : String) (event : Event)
  | clone
  | drop

def Site.phase (site : Site) : Phase := .waiting site

def Resume.phase : Resume → Phase
  | .select => .waiting .select
  | .drain => .draining

namespace Phase

/-- Outboxes that a callback needs for what it still has to send. -/
def held : Phase → ℕ
  | .calling _ (_ :: _) => 1
  | _ => 0

/-- `rx` is not dropped. -/
def listens : Phase → Bool
  | .finished _ => false
  | .panicked => false
  | _ => true

end Phase

namespace Service

/-- `Service::new_with_config` and the call of `serve`. -/
def new (c : Setup) : Service where
  phase := .connecting
  binding := .new c.platform c.subscriptions
  channel := []
  outboxes := 1
  handed := []
  callbacks := []
  accepted := []
  greeting := []
  received := []

def finish (s : Service) (r : Except Client.Error Unit) : Service := { s with phase := .finished r }

/-- A `?` on what the transport returns. -/
def orTransport (s : Service) : Except String Unit → Service
  | .ok () => s
  | .error text => s.finish (.error (.transport text))

/-- Without an outbox a callback sends nothing. -/
def call (c : Setup) (s : Service) (callback : Callback) (resume : Resume) : Service :=
  let callbacks := s.callbacks ++ [callback]
  { s with
    callbacks := callbacks
    phase := .calling resume (if s.outboxes = 0 then [] else c.sends callbacks) }

def connect (s : Service) (r : Except String Unit) : Option Service :=
  match s.phase with
  | .connecting => some ({ s with phase := .flushing .handshake }.orTransport r)
  | _ => none

def closeFrame : Frame := .close (some (1000, ""))

def send (s : Service) (r : Except String Unit) : Option Service :=
  match s.phase with
  | .flushing _ =>
    match s.binding.outgoing with
    | (some data, b) =>
      some ({ s with binding := b, handed := s.handed ++ [Frame.binary data] }.orTransport r)
    | (none, _) => none
  | .closing =>
    some ({ s with phase := .finished (.ok ()), handed := s.handed ++ [closeFrame] }.orTransport r)
  | _ => none

def flushed (s : Service) : Option Service :=
  match s.phase with
  | .flushing site =>
    match s.binding.outgoing with
    | (none, b) => some { s with binding := b, phase := site.phase }
    | (some _, _) => none
  | _ => none

/-- A frame before the acknowledgement. -/
def greet (c : Setup) (s : Service) (frame : Frame) : Service :=
  let s := { s with greeting := s.greeting ++ [frame] }
  if frame.isPing then s
  else
    match Message.ofFrame c.platform frame with
    | .ok (.ack endpoint version) => s.call c (.connected endpoint version) .select
    | .ok message => s.finish (.error (.transport ("expected ACK, got '" ++ c.debug message ++ "'")))
    | .err e => s.finish (.error (.protocolError (.deserializationError e)))
    | .panic => { s with phase := .panicked }

/-- A frame in the main loop. -/
def receive (c : Setup) (s : Service) (frame : Frame) : Service :=
  let s := { s with received := s.received ++ [frame] }
  if frame.isPing then s
  else
    match Message.ofFrame c.platform frame with
    | .ok message =>
      match s.binding.handleIncoming message with
      | (.ok (), b) => { s with binding := b, phase := .draining }
      | (.error e, b) => { s with binding := b }.finish (.error (.protocolError e))
    | .err e => s.call c (.error (.deserializationError e)) .select
    | .panic => { s with phase := .panicked }

def next (c : Setup) (s : Service) (r : Option (Except String Frame)) : Option Service :=
  match s.phase with
  | .waiting site =>
    match r with
    | none => some (s.finish (.ok ())) -- the server closed the connection
    | some (.error text) => some (s.finish (.error (.transport text)))
    | some (.ok frame) =>
      match site with
      | .handshake => some (s.greet c frame)
      | .select => some (s.receive c frame)
  | _ => none

def recv (c : Setup) (s : Service) : Option Service :=
  match s.phase with
  | .waiting .select =>
    match s.channel with
    | (topic, event) :: channel =>
      let s := { s with channel := channel }
      match (s.binding.publishEvent c.platform topic event : Outcome Empty Binding) with
      | .ok b => some { s with binding := b, phase := .flushing .select }
      | .panic => some { s with phase := .panicked }
    | [] => if s.outboxes = 0 then some { s with phase := .closing } else none
  | _ => none

def drain (c : Setup) (s : Service) : Option Service :=
  match s.phase with
  | .draining =>
    match s.binding.receiveEvent with
    | (.ok (some (topic, event)), b) => some ({ s with binding := b }.call c (.event topic event) .drain)
    | (.ok none, b) => some { s with binding := b, phase := .waiting .select }
    | (.err e, b) => some ({ s with binding := b }.call c (.error e) .drain)
    | (.panic, b) => some { s with binding := b, phase := .panicked }
  | _ => none

/-- The channel takes an event if it has room. -/
def push (c : Setup) (s : Service) (e : String × Event) : Option Service :=
  if s.channel.length < c.config.outboxSize then
    some { s with channel := s.channel ++ [e], accepted := s.accepted ++ [e] }
  else none

def callbackSend (c : Setup) (s : Service) : Option Service :=
  match s.phase with
  | .calling resume (e :: todo) => { s with phase := .calling resume todo }.push c e
  | _ => none

def callbackDone (s : Service) : Option Service :=
  match s.phase with
  | .calling resume [] => some { s with phase := resume.phase }
  | _ => none

def accept (c : Setup) (s : Service) (e : String × Event) : Option Service :=
  if s.phase.listens ∧ 0 < s.outboxes then s.push c e else none

def clone (s : Service) : Option Service :=
  if 0 < s.outboxes then some { s with outboxes := s.outboxes + 1 } else none

def drop (s : Service) : Option Service :=
  if s.phase.held < s.outboxes then some { s with outboxes := s.outboxes - 1 } else none

def step (c : Setup) (s : Service) : Action → Option Service
  | .connect r => s.connect r
  | .send r => s.send r
  | .flushed => s.flushed
  | .next r => s.next c r
  | .recv => s.recv c
  | .drain => s.drain c
  | .callbackSend => s.callbackSend c
  | .callbackDone => s.callbackDone
  | .accept topic event => s.accept c (topic, event)
  | .clone => s.clone
  | .drop => s.drop

/-- The service after a sequence of labels. -/
def Serves (c : Setup) (as : List Action) (s : Service) : Prop := Run (step c) (new c) as s

end Service

end ZWS
