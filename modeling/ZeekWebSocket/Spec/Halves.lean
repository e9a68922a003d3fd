import ZeekWebSocket.Spec.Binding

/-! The two halves of a binding that was split. They take any message and any call. -/

namespace ZWS

open Base

/-- What `split` returns, in the hands of one program. -/
structure Halves where
  inbox : Inbox
  outbox : Outbox

def Binding.halves (b : Binding) : Halves := ⟨b.split.1, b.split.2⟩

namespace Halves

/-- A call on one of the halves. -/
inductive Call where
  | handle (message : Message)
  | nextMessage
  | nextEvent
  | enqueue (message : Message)
  | enqueueEvent (topic : String) (event : Event)
  | nextData

/-- A call with what it returned. -/
inductive Step where
  | handle (message : Message)
  | nextMessage (r : Option Message)
  | nextEvent (r : Option (String × Event))
  | enqueue (message : Message)
  | enqueueEvent (topic : String) (event : Event)
  | nextData (data : Option ByteArray)

def Step.call : Step → Call
  | .handle message => .handle message
  | .nextMessage _ => .nextMessage
  | .nextEvent _ => .nextEvent
  | .enqueue message => .enqueue message
  | .enqueueEvent topic event => .enqueueEvent topic event
  | .nextData _ => .nextData

def step (P : Platform) (h : Halves) : Call → Outcome Empty (Step × Halves)
  | .handle message => .ok (.handle message, { h with inbox := h.inbox.handle message })
  | .nextMessage => .ok (.nextMessage h.inbox.nextMessage.1, { h with inbox := h.inbox.nextMessage.2 })
  | .nextEvent => .ok (.nextEvent h.inbox.nextEvent.1, { h with inbox := h.inbox.nextEvent.2 })
  | .enqueue message => do
    let outbox ← h.outbox.enqueue P message
    pure (.enqueue message, { h with outbox := outbox })
  | .enqueueEvent topic event => do
    let outbox ← h.outbox.enqueueEvent P topic event
    pure (.enqueueEvent topic event, { h with outbox := outbox })
  | .nextData => .ok (.nextData h.outbox.nextData.1, { h with outbox := h.outbox.nextData.2 })

/-- A sequence of calls. -/
def run (P : Platform) (h : Halves) : List Call → Outcome Empty (List Step × Halves)
  | [] => .ok ([], h)
  | c :: cs => do
    let (s, h) ← h.step P c
    let (trace, h) ← h.run P cs
    pure (s :: trace, h)

end Halves

end ZWS
