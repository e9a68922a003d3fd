import ZeekWebSocket.Spec.Serve

/-! The asyncio client of the Python bindings: an object with the outbox of the service it was last
run with, the coroutine of its `publish`, the tasks that these spawn, and the services that run on
it. A coroutine of `publish` borrows the object from the call until it ends or is dropped, and
nothing else gets hold of the object meanwhile. -/

namespace ZWS.Python.Asyncio

open Base

inductive Exception where
  | runtimeError (text : String)
  | valueError (text : String)
  deriving DecidableEq

/-- What the client runs on. -/
structure Host where
  platform : Platform
  debug : Message → String
  parseUri : String → Except String Unit
  /-- the `Display` of the errors -/
  protocolText : ProtocolError → String
  clientText : Client.Error → String
  joinText : String

/-- A service and what it was set up with. -/
structure Running where
  setup : Setup
  service : Service

/-- A task that `publish` spawned. It holds a clone of the outbox of service `target`. -/
structure Task where
  target : ℕ
  topic : String
  event : Event

/-- Where a coroutine of `publish` is. -/
inductive Stage where
  /-- called, and not awaited yet -/
  | called
  /-- waiting for its task -/
  | sending (target : ℕ)
  /-- its task is done -/
  | done (target : ℕ) (r : Except Exception Unit)

structure Coroutine where
  topic : String
  event : Event
  stage : Stage

/-- What the send of a task came to. -/
structure Sent where
  task : Task
  result : Except Exception Unit

/-- What a call of `publish` came to, with the service that its task was for. -/
structure Published where
  target : Option ℕ
  topic : String
  event : Event
  result : Except Exception Unit

/-- `coroutine` borrows the object, and `tasks` are those of coroutines that were dropped. The
services are numbered in the order in which they were run. `sends` and `published` are history. -/
structure State where
  outbox : Option ℕ
  coroutine : Option Coroutine
  tasks : List Task
  services : List Running
  sends : List Sent
  published : List Published

inductive Action where
  /-- `Service.run` up to where it spawns the service, in a thread with or without an event loop -/
  | run (endpoint : String) (subscriptions : List String) (loop : Except Exception Unit)
  | publish (topic : String) (event : Event)
  /-- the coroutine is awaited -/
  | poll
  /-- the send that it waits for returns -/
  | sent
  /-- the coroutine goes on after that -/
  | resume
  /-- the coroutine is cancelled, closed or dropped -/
  | cancel
  /-- the send of a task that nobody waits for returns -/
  | sentAlone (i : ℕ)
  | disconnect
  /-- a service takes a step -/
  | serve (k : ℕ) (a : ZWS.Action)
  /-- the method that a service calls raises, or returns nothing that can be awaited -/
  | raise (k : ℕ)

/-- A call on the object. -/
inductive Method where
  | connected (endpoint version : String)
  | event (topic : String) (event : Event)
  | error (text : String)

/-- `PyBorrowMutError`. -/
def alreadyBorrowed : Exception := .runtimeError "Already borrowed"

def notConnected : Exception := .runtimeError "client is not connected"

def notPublished : Exception := .runtimeError "could not publish event"

/-- The steps of `serve` itself. The others are on its outboxes. -/
def own : ZWS.Action → Bool
  | .accept _ _ => false
  | .clone => false
  | .drop => false
  | _ => true

namespace Host

variable (h : Host)

/-- `ZeekClientAdapter`. What the awaited method raises is dropped. -/
def method : Callback → Method
  | .connected endpoint version => .connected endpoint version
  | .event topic event => .event topic event
  | .error e => .error (h.protocolText e)

/-- What `Service.run` returns. -/
def result : Phase → Option (Except Exception Unit)
  | .finished (.ok ()) => some (.ok ())
  | .finished (.error e) => some (.error (.runtimeError (h.clientText e)))
  | .panicked => some (.error (.runtimeError ("task panicked or cancelled: " ++ h.joinText)))
  | _ => none

/-- Methods publish like everyone else, so that no callback sends by itself. -/
def setup (subscriptions : List String) : Setup where
  platform := h.platform
  config := .default
  subscriptions := ⟨subscriptions⟩
  sends _ := []
  debug := h.debug

end Host

namespace State

/-- `ZeekClient()`. -/
def new : State := ⟨none, none, [], [], [], []⟩

def update (σ : State) (k : ℕ) (f : Service → Service) : State :=
  { σ with services := σ.services.modify k fun r => { r with service := f r.service } }

/-- An outbox is cloned. -/
def retain (σ : State) (k : ℕ) : State := σ.update k fun s => { s with outboxes := s.outboxes + 1 }

/-- An outbox is dropped. -/
def release (σ : State) (k : ℕ) : State := σ.update k fun s => { s with outboxes := s.outboxes - 1 }

/-- The outbox of the object is dropped. -/
def take (σ : State) : State :=
  match σ.outbox with
  | some k => { σ.release k with outbox := none }
  | none => σ

def disconnect (σ : State) : Except Exception State :=
  match σ.coroutine with
  | some _ => .error alreadyBorrowed
  | none => .ok σ.take

/-- The new outbox takes the place of the old one. -/
def run (h : Host) (σ : State) (endpoint : String) (subscriptions : List String)
    (loop : Except Exception Unit) : Outcome Exception State :=
  match h.parseUri endpoint with
  | .error e => .err (.valueError ("invalid uri: " ++ e))
  | .ok () =>
    match σ.coroutine with
    | some _ => .panic -- `borrow_mut`
    | none =>
      match loop with
      | .error e => .err e
      | .ok () =>
        let c := h.setup subscriptions
        let σ := σ.take
        .ok { σ with outbox := some σ.services.length, services := σ.services ++ [⟨c, .new c⟩] }

/-- The call only makes the coroutine. -/
def publish (σ : State) (topic : String) (event : Event) : State :=
  match σ.coroutine with
  | some _ => { σ with published := σ.published ++ [⟨none, topic, event, .error alreadyBorrowed⟩] }
  | none => { σ with coroutine := some ⟨topic, event, .called⟩ }

/-- The coroutine ends. -/
def finish (σ : State) (target : Option ℕ) (topic : String) (event : Event) (r : Except Exception Unit) :
    State :=
  { σ with coroutine := none, published := σ.published ++ [⟨target, topic, event, r⟩] }

def poll (σ : State) : Option State :=
  match σ.coroutine with
  | some ⟨topic, event, .called⟩ =>
    match σ.outbox with
    | none => some (σ.finish none topic event (.error notConnected))
    | some k => some { σ.retain k with coroutine := some ⟨topic, event, .sending k⟩ }
  | _ => none

/-- A task is done, and its outbox is dropped. -/
def send (σ : State) (task : Task) : Option (Except Exception Unit × State) := do
  let r ← σ.services[task.target]?
  if r.service.phase.listens then do
    let s ← r.service.push r.setup (task.topic, task.event)
    let σ := σ.update task.target fun _ => s
    pure (.ok (), { σ.release task.target with sends := σ.sends ++ [⟨task, .ok ()⟩] })
  else
    pure (.error notPublished,
      { σ.release task.target with sends := σ.sends ++ [⟨task, .error notPublished⟩] })

def sent (σ : State) : Option State :=
  match σ.coroutine with
  | some ⟨topic, event, .sending k⟩ => do
    let (r, σ) ← σ.send ⟨k, topic, event⟩
    pure { σ with coroutine := some ⟨topic, event, .done k r⟩ }
  | _ => none

def resume (σ : State) : Option State :=
  match σ.coroutine with
  | some ⟨topic, event, .done k r⟩ => some (σ.finish (some k) topic event r)
  | _ => none

/-- The task goes on alone. -/
def cancel (σ : State) : Option State :=
  match σ.coroutine with
  | some ⟨topic, event, .sending k⟩ =>
    some { σ with coroutine := none, tasks := σ.tasks ++ [⟨k, topic, event⟩] }
  | some _ => some { σ with coroutine := none }
  | none => none

def sentAlone (σ : State) (i : ℕ) : Option State := do
  let task ← σ.tasks[i]?
  let (_, σ) ← σ.send task
  pure { σ with tasks := σ.tasks.eraseIdx i }

def serve (σ : State) (k : ℕ) (a : ZWS.Action) : Option State := do
  guard (own a)
  let r ← σ.services[k]?
  let s ← r.service.step r.setup a
  pure (σ.update k fun _ => s)

/-- The task of the service panics. -/
def raise (σ : State) (k : ℕ) : Option State := do
  let r ← σ.services[k]?
  match r.service.phase with
  | .calling _ _ => some (σ.update k fun s => { s with phase := .panicked })
  | _ => none

def step (h : Host) (σ : State) : Action → Option State
  | .run endpoint subscriptions loop =>
    match σ.run h endpoint subscriptions loop with
    | .ok σ => some σ
    | .err _ => some σ
    | .panic => some σ -- a `PanicException`
  | .publish topic event => some (σ.publish topic event)
  | .poll => σ.poll
  | .sent => σ.sent
  | .resume => σ.resume
  | .cancel => σ.cancel
  | .sentAlone i => σ.sentAlone i
  | .disconnect =>
    match σ.disconnect with
    | .ok σ => some σ
    | .error _ => some σ
  | .serve k a => σ.serve k a
  | .raise k => σ.raise k

/-- The client after a sequence of labels. -/
def Runs (h : Host) (as : List Action) (σ : State) : Prop := Run (step h) new as σ

end State

end ZWS.Python.Asyncio
