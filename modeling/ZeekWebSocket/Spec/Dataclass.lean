import ZeekWebSocket.Spec.PyObject

/-! How the bindings turn values into instances of dataclasses. The classes of a program are a
type; what their type hints say is given, and so is what the interpreter does when it is asked to
make an object or to call a class. -/

namespace ZWS.Python

open Base

/-- What a value hands to PyO3 to be made an object. -/
inductive Native where
  | bool (b : Bool)
  | int (n : ℤ)
  | float (x : F64)
  | str (s : String)
  | timedelta (d : Duration)
  | datetime (t : OffsetDateTime)
  | address (a : IpAddr)
  | protocol (p : Protocol)
  | tuple (xs : List Native)
  | list (xs : List Value)
  | set (xs : List Value)
  | dict (es : List (Value × Value))
  | fields (fs : List (String × Value))

/-- The attribute `value`. -/
def Value.value : Value → Native
  | .boolean b => .bool b
  | .count n => .int n.toNat
  | .integer n => .int n.toInt
  | .real x => .float x
  | .string s | .enum s => .str s
  | .address a => .address a
  | .subnet a len => .tuple [.address a, .int len.toNat]
  | .port n p => .tuple [.int n.toNat, .protocol p]
  | .timespan d => .timedelta d
  | .timestamp t => .datetime t
  | .vector xs => .list xs
  | .set xs => .set xs
  | .table es => .dict es
  | .record fs => .fields fs
  | .none => .tuple []

/-- A type hint, as far as it is looked at. An argument that is no class is `none`. -/
inductive Annotation (Ty : Type) where
  | type (ty : Ty)
  | union (args : List (Option Ty))
  | list (elem : Option Ty)
  | set (elem : Option Ty)
  | dict (key val : Option Ty)
  | other

inductive FieldHint (Ty : Type) where
  | valueType
  | dataclass (ty : Ty)
  | enum (ty : Ty)
  | coerce (ty : Ty)
  | optional (inner : FieldHint Ty)
  | list (elem : FieldHint Ty)
  | set (elem : FieldHint Ty)
  | table (key val : FieldHint Ty)
  | plain

/-- How the instances of a dataclass compare and hash. -/
inductive Hashing where
  /-- They have no hash, which `@dataclass` takes away. -/
  | unhashable
  /-- Those made from equal values are equal and hash alike. -/
  | byValue
  /-- In any way, such as each equal to itself alone. -/
  | arbitrary
  deriving DecidableEq

/-- The classes of a program. -/
structure Classes (Ty : Type) where
  /-- The class is `Value` itself. -/
  isValue : Ty → Bool
  isEnum : Ty → Bool
  isDataclass : Ty → Bool
  isNoneType : Ty → Bool
  hashing : Ty → Hashing
  /-- `dataclasses.fields` with their type hints, in the order of their declaration. -/
  declared : Ty → List (String × Annotation Ty)
  nodup : ∀ ty, ((declared ty).map Prod.fst).Nodup

namespace Classes

variable {Ty : Type} (C : Classes Ty)

def classifyType (ty : Ty) : FieldHint Ty :=
  if C.isValue ty then .valueType
  else if C.isEnum ty then .enum ty
  else if C.isDataclass ty then .dataclass ty
  else .coerce ty

def classifyGenericArg : Option Ty → FieldHint Ty
  | some ty => C.classifyType ty
  | none => .plain

def isNone : Option Ty → Bool
  | some ty => C.isNoneType ty
  | none => false

def fieldHint : Annotation Ty → FieldHint Ty
  | .type ty => C.classifyType ty
  | .union args =>
    match args.filter fun a => !C.isNone a with
    | [inner] => .optional (C.classifyGenericArg inner)
    | _ => .plain
  | .list elem => .list (C.classifyGenericArg elem)
  | .set elem => .set (C.classifyGenericArg elem)
  | .dict key val => .table (C.classifyGenericArg key) (C.classifyGenericArg val)
  | .other => .plain

def buildFieldHints (ty : Ty) : List (String × FieldHint Ty) :=
  (C.declared ty).map fun field => (field.1, C.fieldHint field.2)

end Classes

/-- What the interpreter does. Where it may raise it returns an option. -/
structure Interpreter (Ty Obj : Type) where
  ofValue : Value → Obj
  ofNative : Native → Option Obj
  noneObject : Obj
  list : List Obj → Obj
  frozenSet : List Obj → Option Obj
  emptyDict : Obj
  /-- `dict[key] = value`. -/
  setItem : Obj → Obj → Obj → Option Obj
  /-- `ty[name]` of an enum. -/
  getItem : Ty → Obj → Option Obj
  /-- `ty(value)`. -/
  call1 : Ty → Obj → Option Obj
  /-- `ty(**kwargs)`. -/
  call : Ty → List (String × Obj) → Option Obj
  /-- How a class and a value are written in errors. -/
  display : Ty → String
  debug : Value → String

namespace Interpreter

variable {Ty Obj : Type} (py : Interpreter Ty Obj)

def value (val : Value) : Outcome PyException Obj := .ofOption .raised (py.ofNative val.value)

section
variable (asRecord : Ty → Value → Outcome PyException (Option Obj))

def convertField : FieldHint Ty → Value → Outcome PyException Obj
  | .valueType, val => .ok (py.ofValue val)
  | .dataclass ty, val => do
    let made ← asRecord ty val
    .ofOption (.typeError ("cannot convert value " ++ py.debug val ++ " to nested dataclass"))
      made
  | .enum ty, val => do
    let v ← py.value val
    .ofOption .raised (py.getItem ty v)
  | .coerce ty, val => do
    let v ← py.value val
    pure ((py.call1 ty v).getD v)
  | .optional _, .none => .ok py.noneObject
  | .optional inner, val => convertField inner val
  | .list elem, .vector items => do
    let converted ← items.mapM (convertField elem)
    pure (py.list converted)
  | .list _, val => py.value val
  | .set elem, .set items => do
    let converted ← items.mapM (convertField elem)
    .ofOption .raised (py.frozenSet converted)
  | .set _, val => py.value val
  | .table key val, .table entries =>
    entries.foldlM (fun dict e => do
      let k ← convertField key e.1
      let v ← convertField val e.2
      .ofOption .raised (py.setItem dict k v)) py.emptyDict
  | .table _ _, val => py.value val
  | .plain, val => py.value val

variable (C : Classes Ty)

/-- A vector is matched with the declared fields by position, a record by name. -/
def typedValues (targetType : Ty) : Value → Option (List (String × Value × FieldHint Ty))
  | .vector values =>
    some ((values.zip (C.buildFieldHints targetType)).map fun p => (p.2.1, p.1, p.2.2))
  | .record fields =>
    some ((C.buildFieldHints targetType).filterMap fun field =>
      (fields.lookup field.1).map fun v => (field.1, v, field.2))
  | _ => none

def convertArg (arg : String × Value × FieldHint Ty) : Outcome PyException (String × Obj) := do
  let o ← py.convertField asRecord arg.2.2 arg.2.1
  pure (arg.1, o)

/-- The keyword arguments that `as_record` calls the class with. -/
def kwargs (targetType : Ty) (val : Value) :
    Outcome PyException (Option (List (String × Obj))) := do
  if !C.isDataclass targetType then
    .err (.valueError (py.display targetType ++ " is not a dataclass"))
  else
    match typedValues C targetType val with
    | none => pure none
    | some args => do
      let kwargs ← args.mapM (py.convertArg asRecord)
      pure (some kwargs)

end

/-- `Value::as_record` on a stack with room for `depth` nested dataclasses. -/
def asRecord (C : Classes Ty) : ℕ → Ty → Value → Outcome PyException (Option Obj)
  | 0, _, _ => .panic
  | depth + 1, targetType, val => do
    match ← py.kwargs (asRecord C depth) C targetType val with
    | none => pure none
    | some kwargs => do
      let o ← .ofOption .raised (py.call targetType kwargs)
      pure (some o)

/-- `as_record` calls the class with these keyword arguments, on a large enough stack. -/
def CallsWith (C : Classes Ty) (targetType : Ty) (val : Value) (kwargs : List (String × Obj)) :
    Prop :=
  ∃ depth, py.kwargs (py.asRecord C depth) C targetType val = .ok (some kwargs)

/-- A call of a class that hashes in this way made the object. -/
def MadeBy (C : Classes Ty) (h : Hashing) (o : Obj) : Prop :=
  ∃ ty kwargs, C.hashing ty = h ∧ py.call ty kwargs = some o

/-- What Python promises of the instances of dataclasses in sets and as keys of dicts. Sets and
dicts that are equal are one object here, and so are equal instances. -/
structure Lawful (py : Interpreter Ty Obj) (C : Classes Ty) : Prop where
  equal : ∀ ty, C.hashing ty = .byValue → ∀ depth v w, v.Equal w →
    (py.asRecord C depth ty v).Agree (py.asRecord C depth ty w)
  /-- A set is its elements, however often they are listed. -/
  set : ∀ os os', (∀ o ∈ os, py.MadeBy C .byValue o) → (∀ o, o ∈ os ↔ o ∈ os') →
    py.frozenSet os = py.frozenSet os'
  unhashableElement : ∀ os, ∀ o ∈ os, py.MadeBy C .unhashable o → py.frozenSet os = none
  /-- The last value that a key is given counts. -/
  again : ∀ k, py.MadeBy C .byValue k → ∀ dict v dict' v', py.setItem dict k v = some dict' →
    py.setItem dict' k v' = py.setItem dict k v'
  /-- In which order keys are added does not. -/
  swap : ∀ k k', py.MadeBy C .byValue k → py.MadeBy C .byValue k' → k ≠ k' → ∀ dict v v',
    (do let dict ← py.setItem dict k v; py.setItem dict k' v') =
      do let dict ← py.setItem dict k' v'; py.setItem dict k v
  unhashableKey : ∀ k, py.MadeBy C .unhashable k → ∀ dict v, py.setItem dict k v = none

end Interpreter

end ZWS.Python
