import ZeekWebSocket.Library.Outcome
import ZeekWebSocket.Spec.Python

/-! How the bindings infer a value from a Python object. What PyO3 makes of an object is given:
each conversion that the inference tries finds what it looks for or raises. -/

namespace ZWS.Python

open Base

/-- What PyO3 and the interpreter say about objects, the same each time they are asked. -/
structure PyObjects (Obj : Type) where
  /-- The object is an instance of the class `Value`. -/
  asValue : Obj → Option Value
  asBool : Obj → Option Bool
  asFloat : Obj → Option F64
  asDuration : Obj → Option Duration
  asDateTime : Obj → Option OffsetDateTime
  /-- From an address object or a text. -/
  asAddress : Obj → Option IpAddr
  /-- The items of a tuple. -/
  asTuple : Obj → Option (List Obj)
  asU8 : Obj → Option UInt8
  asU16 : Obj → Option UInt16
  asProtocol : Obj → Option Protocol
  /-- The items of a sequence other than a `str`. -/
  asSequence : Obj → Option (List Obj)
  /-- The items of a `set` or `frozenset`. -/
  asSet : Obj → Option (List Obj)
  /-- The items of a `dict`. -/
  asDict : Obj → Option (List (Obj × Obj))
  asString : Obj → Option String
  isNone : Obj → Bool
  /-- `isinstance(obj, enum.Enum)`, which may raise. -/
  isEnum : Obj → Option Bool
  /-- `getattr(obj, "name")`. -/
  getName : Obj → Option Obj
  /-- `getattr_opt("__dict__")`: raises, or tells whether the attribute is there. -/
  getDict : Obj → Option (Option Obj)
  /-- `repr(obj)`. -/
  repr : Obj → String

/-- What a conversion raises. -/
inductive PyException where
  /-- Raised by PyO3, the interpreter or a class. -/
  | raised
  | valueError (message : String)
  | typeError (message : String)
  deriving DecidableEq

namespace PyObjects

variable {Obj : Type} (py : PyObjects Obj)

/-- `obj.extract()` for a type that PyO3 converts by itself. -/
def attempt {α : Type} (x : Option α) (make : α → Value) : Outcome PyException Value := do
  let a ← .ofOption .raised x
  pure (make a)

def extractSubnet (obj : Obj) : Outcome PyException Value := do
  match ← Outcome.ofOption .raised (py.asTuple obj) with
  | [ip, len] =>
    let ip ← .ofOption .raised (py.asAddress ip)
    let len ← .ofOption .raised (py.asU8 len)
    pure (.subnet ip len)
  | _ => .err .raised

def extractPort (obj : Obj) : Outcome PyException Value := do
  match ← Outcome.ofOption .raised (py.asTuple obj) with
  | [num, proto] =>
    let num ← .ofOption .raised (py.asU16 num)
    let proto ← .ofOption .raised (py.asProtocol proto)
    pure (.port num proto)
  | _ => .err .raised

section
variable (extract : Obj → Outcome PyException Value)

def extractVector (obj : Obj) : Outcome PyException Value := do
  let items ← .ofOption .raised (py.asSequence obj)
  let xs ← items.mapM extract
  pure (.vector xs)

def extractSet (obj : Obj) : Outcome PyException Value := do
  let items ← .ofOption .raised (py.asSet obj)
  let xs ← items.mapM extract
  pure (.set (collectBy Value.cmp keepNew xs))

def extractEntry (item : Obj × Obj) : Outcome PyException (Value × Value) := do
  let k ← extract item.1
  let v ← extract item.2
  pure (k, v)

/-- `BTreeMap::insert` keeps the key that is there and takes the new value. -/
def insertEntry (old new : Value × Value) : Value × Value := (old.1, new.2)

def extractTable (obj : Obj) : Outcome PyException Value := do
  let items ← .ofOption .raised (py.asDict obj)
  let es ← items.mapM (extractEntry extract)
  pure (.table (collectBy (byKey Value.cmp) insertEntry es))

/-- The conversions before the one to an enum, in the order they are tried. -/
def earlier (obj : Obj) : List (Outcome PyException Value) :=
  [attempt (py.asValue obj) id,
   attempt (py.asBool obj) .boolean,
   attempt (py.asFloat obj) .real,
   attempt (py.asDuration obj) .timespan,
   attempt (py.asDateTime obj) .timestamp,
   attempt (py.asAddress obj) .address,
   py.extractSubnet obj,
   py.extractPort obj,
   py.extractVector extract obj,
   py.extractSet extract obj,
   py.extractTable extract obj,
   attempt (py.asString obj) .string,
   if py.isNone obj then .ok .none else .err .raised]

/-- Takes the name of any object that has one: what `is_instance` returns is not looked at. -/
def extractEnum (obj : Obj) : Outcome PyException Value := do
  let _ ← Outcome.ofOption .raised (py.isEnum obj)
  let name ← .ofOption .raised (py.getName obj)
  let x ← .ofOption .raised (py.asString name)
  pure (.enum x)

def extractField (item : Obj × Obj) : Outcome PyException (String × Value) := do
  let k ← .ofOption .raised (py.asString item.1)
  let v ← extract item.2
  pure (k, v)

def extractRecord (obj : Obj) : Outcome PyException Value := do
  let x ← .ofOption .raised (py.getDict obj)
  let x ← .ofOption (.valueError "argument does not have a __dict__ attribute") x
  let items ← .ofOption .raised (py.asDict x)
  let fs ← items.mapM (py.extractField extract)
  pure (.record (collectBy (byKey compareStr) keepNew fs))

def unsupported (obj : Obj) : Outcome PyException Value :=
  .err (.typeError ("automatic conversion of " ++ py.repr obj ++ " to Value is unsupported"))

/-- The first conversion that does not fail. -/
def infer (obj : Obj) : Outcome PyException Value :=
  .firstOk (py.unsupported obj)
    (py.earlier extract obj ++ [py.extractEnum obj, py.extractRecord extract obj])

end

/-- `FromPyObject for Value` on a stack with room for `depth` calls inside each other. Without
room the process goes down. -/
def extract : ℕ → Obj → Outcome PyException Value
  | 0, _ => .panic
  | depth + 1, obj => py.infer (extract depth) obj

/-- `make_value`, with as much of a stack as it takes. -/
def MakesValue (obj : Obj) (v : Value) : Prop := ∃ depth, py.extract depth obj = .ok v

end PyObjects

end ZWS.Python
