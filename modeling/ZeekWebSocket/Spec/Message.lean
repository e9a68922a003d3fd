import ZeekWebSocket.Spec.Wire

/-! Messages of the Zeek API: events as values, the JSON object of a message and the
WebSocket frames that carry it.

A message is read from a buffer of its whole object, since the tag `type` may come last,
and the payload of a data message is read from the fields that are left. -/

namespace ZWS

open Base

structure Event where
  name : String
  args : List Value
  metadata : List Value

def Event.new (name : String) (args : List Value) : Event := ⟨name, args, []⟩

def Event.withMetadata (e : Event) (metadata : List Value) : Event := { e with metadata := metadata }

inductive Data where
  | event (e : Event)
  | other (v : Value)

def eventType : UInt64 := 1

def formatNr : UInt64 := 1

namespace Value

def asVector : Value → Option (List Value)
  | .vector xs => some xs
  | _ => Option.none

def asCount : Value → Option UInt64
  | .count n => some n
  | _ => Option.none

def asString : Value → Option String
  | .string s => some s
  | _ => Option.none

end Value

namespace Data

/-- Metadata might be present or not. A single value stands for a list of one. -/
def metadataOf : Option Value → List Value
  | some (.vector xs) => xs
  | some x => [x]
  | none => []

/-- The event a value holds, one condition of the source after the other. -/
def eventOf (v : Value) : Option Event := do
  let xs ← v.asVector
  let t ← xs[1]?.bind Value.asCount
  guard (t = eventType)
  let data ← xs[2]?.bind Value.asVector
  let name ← data[0]?.bind Value.asString
  let args ← data[1]?.bind Value.asVector
  pure ((Event.new name args).withMetadata (metadataOf data[2]?))

/-- `From<Value>`. -/
def ofValue (v : Value) : Data :=
  match eventOf v with
  | some e => .event e
  | none => .other v

/-- `From<Data> for Value`. -/
def toValue : Data → Value
  | .event e =>
    .vector [.count formatNr, .count eventType,
      .vector [.string e.name, .vector e.args, .vector e.metadata]]
  | .other v => v

end Data

inductive Message where
  | ack (endpoint version : String)
  | error (code context : String)
  | dataMessage (topic : String) (data : Data)

def typeKey : String := "type"

namespace Message

def newData (topic : String) (event : Event) : Message := .dataMessage topic (.event event)

@[simp] theorem newData_eq (topic : String) (event : Event) :
    newData topic event = .dataMessage topic (.event event) := rfl

inductive Tag where
  | ack
  | error
  | dataMessage
  deriving DecidableEq

def Tag.name : Tag → String
  | .ack => "ack"
  | .error => "error"
  | .dataMessage => "data-message"

def Tag.fromStr : String → Outcome DecodeError Tag
  | "ack" => .ok .ack
  | "error" => .ok .error
  | "data-message" => .ok .dataMessage
  | s => .err (.unknownVariant s)

/-- The payload is flattened into the object of the message. -/
def encode (P : Platform) : Message → Outcome EncodeError Json
  | .ack endpoint version => .ok (.obj
      [(typeKey, .str Tag.ack.name), ("endpoint", .str endpoint), ("version", .str version)])
  | .error code context => .ok (.obj
      [(typeKey, .str Tag.error.name), ("code", .str code), ("context", .str context)])
  | .dataMessage topic data => do
    let c ← data.toValue.encodeContent P
    pure (.obj [(typeKey, .str Tag.dataMessage.name), ("topic", .str topic),
      (tagKey, .str data.toValue.tag.name), (contentKey, c)])

def readString : Json → Outcome DecodeError String
  | .str s => .ok s
  | _ => .err .invalidType

def readTag : Json → Outcome DecodeError Tag
  | .str s => Tag.fromStr s
  | _ => .err .invalidType

/-- Take the tag out of an object. The other fields are buffered in their order. -/
def takeTag (tag : Option Tag) (content : List (String × Json)) :
    List (String × Json) → Outcome DecodeError (Tag × List (String × Json))
  | [] =>
    match tag with
    | some t => .ok (t, content)
    | none => .err (.missingField typeKey)
  | (k, j) :: fs =>
    if k = typeKey then
      if tag.isSome then .err (.duplicateField typeKey)
      else do
        let t ← readTag j
        takeTag (some t) content fs
    else takeTag tag (content ++ [(k, j)]) fs

/-- A struct of two strings. Each field is known by one or more names, reported by the first. -/
def visitStrings (f g : String × List String) (a b : Option String) :
    List (String × Json) → Outcome DecodeError (String × String)
  | [] =>
    match a, b with
    | some a, some b => .ok (a, b)
    | none, _ => .err (.missingField f.1)
    | some _, none => .err (.missingField g.1)
  | (k, j) :: fs =>
    if k = f.1 ∨ k ∈ f.2 then
      if a.isSome then .err (.duplicateField f.1)
      else do
        let s ← readString j
        visitStrings f g (some s) b fs
    else if k = g.1 ∨ k ∈ g.2 then
      if b.isSome then .err (.duplicateField g.1)
      else do
        let s ← readString j
        visitStrings f g a (some s) fs
    else visitStrings f g a b fs

/-- The same struct from an array. -/
def visitStringsSeq : List Json → Outcome DecodeError (String × String)
  | [] => .err (.invalidLength 0)
  | [a] => do
    let _ ← readString a
    .err (.invalidLength 1)
  | a :: b :: rest => do
    let a ← readString a
    let b ← readString b
    if rest.isEmpty then pure (a, b) else .err (.invalidLength (rest.length + 2))

def visitAck : List (String × Json) → Outcome DecodeError (String × String) :=
  visitStrings ("endpoint", []) ("version", []) none none

def visitError : List (String × Json) → Outcome DecodeError (String × String) :=
  visitStrings ("code", []) ("context", ["message"]) none none

/-- The flattened payload sees only its own two keys. -/
def visitDataMessage (P : Platform) (topic : Option String) (collect : List (String × Json)) :
    List (String × Json) → Outcome DecodeError Message
  | [] =>
    match topic with
    | none => .err (.missingField "topic")
    | some topic => do
      let v ← Value.visitMap P true (collect.filter fun f => f.1 = tagKey ∨ f.1 = contentKey)
      pure (.dataMessage topic (.ofValue v))
  | (k, j) :: fs =>
    if k = "topic" then
      if topic.isSome then .err (.duplicateField "topic")
      else do
        let s ← readString j
        visitDataMessage P (some s) collect fs
    else visitDataMessage P topic (collect ++ [(k, j)]) fs

def decode (P : Platform) : Json → Outcome DecodeError Message
  | .obj fs => do
    let (tag, content) ← takeTag none [] fs
    match tag with
    | .ack => do
      let (endpoint, version) ← visitAck content
      pure (.ack endpoint version)
    | .error => do
      let (code, context) ← visitError content
      pure (.error code context)
    | .dataMessage => visitDataMessage P none [] content
  | .arr [] => .err (.missingField typeKey)
  | .arr (t :: content) => do
    let tag ← readTag t
    match tag with
    | .ack => do
      let (endpoint, version) ← visitStringsSeq content
      pure (.ack endpoint version)
    | .error => do
      let (code, context) ← visitStringsSeq content
      pure (.error code context)
    -- a struct with a flattened field is read from objects only
    | .dataMessage => .err .invalidType
  | _ => .err .invalidType

end Message

/-- `tungstenite::Message`. -/
inductive Frame where
  | text (s : String)
  | binary (data : ByteArray)
  | ping (data : ByteArray)
  | pong (data : ByteArray)
  | close (frame : Option (UInt16 × String))
  | frame (payload : ByteArray)
  deriving DecidableEq

namespace Frame

def isPing : Frame → Bool
  | .ping _ => true
  | _ => false

def intoData : Frame → ByteArray
  | .text s => s.toUTF8
  | .binary data => data
  | .ping data => data
  | .pong data => data
  | .close none => .empty
  | .close (some (_, reason)) => reason.toUTF8
  | .frame payload => payload

end Frame

/-- What is wrong with JSON text: it is no JSON, or it is not what was asked for. -/
inductive JsonError where
  | syntaxError
  | data (e : DecodeError)
  deriving DecidableEq

inductive DeserializationError where
  | unexpectedMessageType (frame : Frame)
  | json (e : JsonError)
  deriving DecidableEq

namespace Message

/-- `From<Message>`: "conversion should never fail". -/
def toFrame {ε : Type} (P : Platform) (m : Message) : Outcome ε Frame :=
  match m.encode P with
  | .ok j => .ok (.text (P.renderJson j))
  | .err _ => .panic
  | .panic => .panic

def fromBytes (P : Platform) (bytes : ByteArray) : Outcome DeserializationError Message :=
  match P.parseJson bytes with
  | none => .err (.json .syntaxError)
  | some j => (decode P j).mapErr fun e => .json (.data e)

/-- `TryFrom<tungstenite::Message>`. -/
def ofFrame (P : Platform) : Frame → Outcome DeserializationError Message
  | .text txt => fromBytes P txt.toUTF8
  | .binary bin => fromBytes P bin
  | x => .err (.unexpectedMessageType x)

end Message

structure Subscriptions where
  topics : List String

def Subscriptions.toFrame (P : Platform) (s : Subscriptions) : Frame :=
  .text (P.renderJson (.arr (s.topics.map .str)))

end ZWS
