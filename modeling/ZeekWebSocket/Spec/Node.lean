import ZeekWebSocket.Library.Rounding
import ZeekWebSocket.Spec.Binding

/-! The Node bindings: values with addresses as text, durations and instants as nanoseconds and
plain arrays for sets and tables, and the conversions from and to those of the library. -/

namespace ZWS.Node

open Base

/-- napi's `BigInt`: a sign and words, the lowest first. -/
structure BigInt where
  signBit : Bool
  words : List UInt64
  deriving DecidableEq

namespace BigInt

def ofU64 (n : UInt64) : BigInt := ⟨false, [n]⟩

/-- napi's `get_u64`: the sign, the lowest word, and whether nothing is lost, which takes a number
that is not negative and has no other word. -/
def getU64 (b : BigInt) : Bool × UInt64 × Bool :=
  (b.signBit, b.words.headD 0, !b.signBit && decide (b.words.length = 1))

end BigInt

inductive Protocol where
  | tcp
  | udp
  | icmp
  | unknown
  deriving DecidableEq

def Protocol.toZeek : Protocol → ZWS.Protocol
  | .tcp => .tcp
  | .udp => .udp
  | .icmp => .icmp
  | .unknown => .unknown

def Protocol.ofZeek : ZWS.Protocol → Protocol
  | .tcp => .tcp
  | .udp => .udp
  | .icmp => .icmp
  | .unknown => .unknown

inductive Value where
  | none
  | boolean (value : Bool)
  | count (value : BigInt)
  | integer (value : Int64)
  | real (value : F64)
  | timespan (nanos : Int64)
  | timestamp (nanos : Int64)
  | string (value : String)
  | enumValue (value : String)
  | address (value : String)
  | subnet (value : String)
  | port (number : UInt16) (protocol : Protocol)
  | vector (value : List Value)
  | set (value : List Value)
  | table (value : List (Value × Value))

/-- What an error names as not representable. -/
inductive Unrepresentable where
  | bigInt (value : BigInt)
  | address (text : String)
  | network (text : String)
  | timespan (d : Duration)
  | timestamp (t : OffsetDateTime)

inductive Error where
  /-- "value '_' not representable in Zeek" -/
  | notRespresentable (what : Unrepresentable)
  /-- A payload that is not understood, or cannot be written. -/
  | malformedPayload (e : DeserializationError)
  | unwritablePayload (e : EncodeError)
  /-- "expected event, got '_'" -/
  | unexpectedPayload (other : ZWS.Value)
  | unknownLocalTzOffset
  | componentRange

/-- The duration that nanoseconds are taken for. They go through `f64`. -/
def durationOf (nanos : Int64) : Outcome Error Duration :=
  let nanos_ := round53 nanos.toInt
  let secs : ℚ := truncate (round53 (nanos_ / 10 ^ 9))
  let nanos_ := round53 (nanos_ - round53 (secs * 10 ^ 9))
  Duration.new (.ofInt (castInt (-2 ^ 63) (2 ^ 63 - 1) secs)) (castInt (-2 ^ 31) (2 ^ 31 - 1) nanos_)

namespace Value

mutual
/-- `TryFrom<Value> for zeek_websocket::Value`. -/
def toZeek (P : Platform) : Value → Outcome Error ZWS.Value
  | .none => .ok .none
  | .boolean value => .ok (.boolean value)
  | .count value =>
    match value.getU64 with
    | (_, n, true) => .ok (.count n)
    | (_, _, false) => .err (.notRespresentable (.bigInt value))
  | .integer value => .ok (.integer value)
  | .real value => .ok (.real value)
  | .string value => .ok (.string value)
  | .enumValue value => .ok (.enumValue value)
  | .timespan nanos => do
    let d ← durationOf nanos
    pure (.timespan d)
  | .timestamp nanos => do
    let time ← .ofOption .componentRange (OffsetDateTime.ofUnixNanos nanos.toInt)
    pure (.timestamp time)
  | .vector value => do
    let vs ← toZeekSeq P value
    pure (.vector vs)
  -- both trees keep the last of equal elements that an iterator gives
  | .set value => do
    let vs ← toZeekSeq P value
    pure (.set (collectBy ZWS.Value.cmp keepNew vs))
  | .table value => do
    let es ← toZeekEntries P value
    pure (.table (collectBy (byKey ZWS.Value.cmp) keepNew es))
  | .address value => do
    let a ← .ofOption (.notRespresentable (.address value)) (P.parseAddr value)
    pure (.address a)
  | .subnet value => do
    let n ← .ofOption (.notRespresentable (.network value)) (P.parseNetwork value)
    pure (.subnet n)
  | .port number protocol => .ok (.port ⟨number, protocol.toZeek⟩)
def toZeekSeq (P : Platform) : List Value → Outcome Error (List ZWS.Value)
  | [] => .ok []
  | x :: xs => do
    let v ← toZeek P x
    let vs ← toZeekSeq P xs
    pure (v :: vs)
def toZeekEntries (P : Platform) : List (Value × Value) → Outcome Error (List (ZWS.Value × ZWS.Value))
  | [] => .ok []
  | (k, v) :: es => do
    let k ← toZeek P k
    let v ← toZeek P v
    let es ← toZeekEntries P es
    pure ((k, v) :: es)
end

mutual
/-- `TryFrom<zeek_websocket::Value> for Value`. -/
def ofZeek (P : Platform) : ZWS.Value → Outcome Error Value
  | .none => .ok .none
  | .boolean b => .ok (.boolean b)
  | .count n => .ok (.count (.ofU64 n))
  | .integer n => .ok (.integer n)
  | .real x => .ok (.real x)
  | .string s => .ok (.string s)
  | .enumValue s => .ok (.enumValue s)
  | .vector xs => do
    let vs ← ofZeekSeq P xs
    pure (.vector vs)
  | .set xs => do
    let vs ← ofZeekSeq P xs
    pure (.set vs)
  | .table es => do
    let es ← ofZeekEntries P es
    pure (.table es)
  | .port p => .ok (.port p.number (.ofZeek p.protocol))
  | .address a => .ok (.address (P.formatAddr a))
  | .subnet n => .ok (.subnet (P.formatNetwork n))
  | .timespan d =>
    if FitsI64 d.wholeNanoseconds then .ok (.timespan (.ofInt d.wholeNanoseconds))
    else .err (.notRespresentable (.timespan d))
  | .timestamp t => do
    let offset ← .ofOption .unknownLocalTzOffset P.localOffset
    let nanos := (OffsetDateTime.newInOffset t.localTime offset).unixNanos
    if FitsI64 nanos then pure (.timestamp (.ofInt nanos))
    else .err (.notRespresentable (.timestamp t))
def ofZeekSeq (P : Platform) : List ZWS.Value → Outcome Error (List Value)
  | [] => .ok []
  | x :: xs => do
    let v ← ofZeek P x
    let vs ← ofZeekSeq P xs
    pure (v :: vs)
def ofZeekEntries (P : Platform) : List (ZWS.Value × ZWS.Value) → Outcome Error (List (Value × Value))
  | [] => .ok []
  | (k, v) :: es => do
    let k ← ofZeek P k
    let v ← ofZeek P v
    let es ← ofZeekEntries P es
    pure ((k, v) :: es)
end

/-- A value that holds no others. -/
def IsLeaf : Value → Prop
  | .vector _ | .set _ | .table _ => False
  | _ => True

@[elab_as_elim]
theorem induct {C : Value → Prop} (leaf : ∀ v, v.IsLeaf → C v)
    (vector : ∀ xs, (∀ x ∈ xs, C x) → C (.vector xs))
    (set : ∀ xs, (∀ x ∈ xs, C x) → C (.set xs))
    (table : ∀ es, (∀ e ∈ es, C e.1 ∧ C e.2) → C (.table es)) (v : Value) : C v :=
  @Value.rec C (fun xs => ∀ x ∈ xs, C x) (fun es => ∀ e ∈ es, C e.1 ∧ C e.2)
    (fun e => C e.1 ∧ C e.2) (leaf _ trivial) (fun _ => leaf _ trivial) (fun _ => leaf _ trivial)
    (fun _ => leaf _ trivial) (fun _ => leaf _ trivial) (fun _ => leaf _ trivial)
    (fun _ => leaf _ trivial) (fun _ => leaf _ trivial) (fun _ => leaf _ trivial)
    (fun _ => leaf _ trivial) (fun _ => leaf _ trivial) (fun _ _ => leaf _ trivial)
    vector set table
    (by simp) (fun _ _ h hs => List.forall_mem_cons.mpr ⟨h, hs⟩)
    (by simp) (fun _ _ h hs => List.forall_mem_cons.mpr ⟨h, hs⟩) (fun _ _ hk hv => ⟨hk, hv⟩) v

end Value

structure Event where
  name : String
  args : List Value
  metadata : List Value

namespace Event

def toZeek (P : Platform) (e : Event) : Outcome Error ZWS.Event := do
  let args ← e.args.mapM (Value.toZeek P)
  let metadata ← e.metadata.mapM (Value.toZeek P)
  pure ⟨e.name, args, metadata⟩

def ofZeek (P : Platform) (e : ZWS.Event) : Outcome Error Event := do
  let args ← e.args.mapM (Value.ofZeek P)
  let metadata ← e.metadata.mapM (Value.ofZeek P)
  pure ⟨e.name, args, metadata⟩

end Event

inductive Message where
  | ack (endpoint version : String)
  | event (topic : String) (event : Event)
  | error (code context : String)

/-- `TryFrom<Message> for zeek_websocket::Message`. -/
def Message.toZeek (P : Platform) : Message → Outcome Error ZWS.Message
  | .ack endpoint version => .ok (.ack endpoint version)
  | .event topic e => do
    let e ← e.toZeek P
    pure (.newData topic e)
  | .error code context => .ok (.error code context)

def deserializeJson (P : Platform) (json : String) : Outcome Error Message := do
  let message ← (ZWS.Message.fromBytes P json.toUTF8).mapErr .malformedPayload
  match message with
  | .ack endpoint version => pure (.ack endpoint version)
  | .error code context => pure (.error code context)
  | .dataMessage topic (.event event) => do
    let event ← Event.ofZeek P event
    pure (.event topic event)
  | .dataMessage _ (.other other) => .err (.unexpectedPayload other)

def serializeJson (P : Platform) (message : Message) : Outcome Error String := do
  let value ← message.toZeek P
  let j ← (value.encode P).mapErr .unwritablePayload
  pure (P.renderJson j)

/-- The wrapper of the library's binding. -/
structure ProtocolBinding where
  inner : Binding

/-- The event is converted before it is handed on. -/
def ProtocolBinding.publishEvent (P : Platform) (b : ProtocolBinding) (topic : String)
    (event : Event) : Outcome Error Unit × ProtocolBinding :=
  match event.toZeek P with
  | .ok event =>
    match b.inner.publishEvent P topic event with
    | .ok inner => (.ok (), ⟨inner⟩)
    | .err e => (.err e, b)
    | .panic => (.panic, b)
  | .err e => (.err e, b)
  | .panic => (.panic, b)

/-- Why a payload was not taken in. -/
inductive BindingError where
  /-- "data payload not understood: _" -/
  | unsupportedMessagePayload (e : DeserializationError)
  /-- "failed to handle message: _" -/
  | handlingFailed (e : ProtocolError)

namespace ProtocolBinding

def new (P : Platform) (subscriptions : List String) : ProtocolBinding := ⟨.new P ⟨subscriptions⟩⟩

def handleIncoming (P : Platform) (b : ProtocolBinding) (data : ByteArray) :
    Outcome BindingError Unit × ProtocolBinding :=
  match ZWS.Message.fromBytes P data with
  | .ok message =>
    match b.inner.handleIncoming message with
    | (.ok (), inner) => (.ok (), ⟨inner⟩)
    | (.error e, inner) => (.err (.handlingFailed e), ⟨inner⟩)
  | .err e => (.err (.unsupportedMessagePayload e), b)
  | .panic => (.panic, b)

/-- Get next data enqueued for sending. -/
def outgoing (b : ProtocolBinding) : Option ByteArray × ProtocolBinding :=
  (b.inner.outgoing.1, ⟨b.inner.outgoing.2⟩)

end ProtocolBinding

/-- A call that is exported. `receive_event` is not. -/
inductive Call where
  | handleIncoming (data : ByteArray)
  | outgoing
  | publishEvent (topic : String) (event : Event)

/-- A call with what it returned. -/
inductive Step where
  | handleIncoming (data : ByteArray) (r : Except BindingError Unit)
  | outgoing (data : Option ByteArray)
  | publishEvent (topic : String) (event : Event) (r : Except Error Unit)

def Step.call : Step → Call
  | .handleIncoming data _ => .handleIncoming data
  | .outgoing _ => .outgoing
  | .publishEvent topic event _ => .publishEvent topic event

namespace ProtocolBinding

/-- What a caller sees of a result. Nothing is seen of a panic. -/
def observe {ε α : Type} (step : Except ε α → Step) (result : Outcome ε α × ProtocolBinding) :
    Outcome Empty (Step × ProtocolBinding) :=
  match result.1 with
  | .ok a => .ok (step (.ok a), result.2)
  | .err e => .ok (step (.error e), result.2)
  | .panic => .panic

def step (P : Platform) (b : ProtocolBinding) : Call → Outcome Empty (Step × ProtocolBinding)
  | .handleIncoming data => observe (.handleIncoming data) (b.handleIncoming P data)
  | .outgoing => .ok (.outgoing b.outgoing.1, b.outgoing.2)
  | .publishEvent topic event => observe (.publishEvent topic event) (b.publishEvent P topic event)

/-- A sequence of calls. -/
def run (P : Platform) (b : ProtocolBinding) : List Call → Outcome Empty (List Step × ProtocolBinding)
  | [] => .ok ([], b)
  | c :: cs => do
    let (s, b) ← b.step P c
    let (trace, b) ← b.run P cs
    pure (s :: trace, b)

end ProtocolBinding

end ZWS.Node
