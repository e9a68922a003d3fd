import ZeekWebSocket.Spec.Message
import ZeekWebSocket.Spec.Python

/-! JSON text from and to the values and events of the Python bindings. An event of Python is one of
the library, whose values are converted when they are put in and taken out. -/

namespace ZWS.Python

open Base

/-- What these methods raise: a `ValueError` for the first, and `RuntimeError`s. -/
inductive JsonErr where
  | notConverted (e : IpNetworkError)
  | notSerialized (e : EncodeError)
  | notDeserialized (e : JsonError)
  | notEvent (other : ZWS.Value)

/-- `serde_json::from_str` for a value of the library. -/
def valueFromText (P : Platform) (data : String) : Outcome JsonErr ZWS.Value :=
  match P.parseJson data.toUTF8 with
  | none => .err (.notDeserialized .syntaxError)
  | some j => (ZWS.Value.decode P false j).mapErr fun e => .notDeserialized (.data e)

/-- `serde_json::to_string`. -/
def valueToText (P : Platform) (v : ZWS.Value) : Outcome JsonErr String := do
  let j ← (v.encode P).mapErr .notSerialized
  pure (P.renderJson j)

namespace Value

def serializeJson (P : Platform) (p : Value) : Outcome JsonErr String := do
  let value ← p.toRust.mapErr .notConverted
  valueToText P value

def deserializeJson (P : Platform) (data : String) : Outcome JsonErr Value := do
  let value ← valueFromText P data
  pure (ofRust value)

end Value

/-- `Event` of the bindings. -/
structure PyEvent where
  inner : ZWS.Event

namespace PyEvent

def new (name : String) (args metadata : List Value) : Outcome JsonErr PyEvent := do
  let args ← (args.mapM Value.toRust).mapErr .notConverted
  let metadata ← (metadata.mapM Value.toRust).mapErr .notConverted
  pure ⟨(ZWS.Event.new name args).withMetadata metadata⟩

def name (e : PyEvent) : String := e.inner.name

def args (e : PyEvent) : List Value := e.inner.args.map .ofRust

def metadata (e : PyEvent) : List Value := e.inner.metadata.map .ofRust

def serializeJson (P : Platform) (e : PyEvent) : Outcome JsonErr String :=
  valueToText P (Data.event e.inner).toValue

def deserializeJson (P : Platform) (data : String) : Outcome JsonErr PyEvent := do
  let value ← valueFromText P data
  match Data.ofValue value with
  | .event e => pure ⟨e⟩
  | .other other => .err (.notEvent other)

end PyEvent

end ZWS.Python
