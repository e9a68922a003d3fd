import ZeekWebSocket.Library.Outcome
import ZeekWebSocket.Spec.Value

/-! The conversions of scalars from and to values, and those that the derive macro
generates for structs. A struct is given by its fields in the order of their
declaration. -/

namespace ZWS

open Base

inductive ConversionError where
  | mismatchedTypes
  | domain
  deriving DecidableEq

/-- A variant of `Value` and the pattern that matches it. -/
structure Variant (β : Type) where
  make : β → Value
  get : Value → Option β
  get_eq_some : ∀ v x, get v = some x ↔ make x = v

/-- What `impl_T!` takes of a type: a variant, and how its payload widens and narrows. -/
structure Impl (α β : Type) where
  variant : Variant β
  widen : α → β
  narrow : β → Option α
  narrow_eq_some : ∀ x a, narrow x = some a ↔ widen a = x

namespace Impl

variable {α β : Type}

def toValue (i : Impl α β) (a : α) : Value := i.variant.make (i.widen a)

def tryFrom (i : Impl α β) (v : Value) : Outcome ConversionError α := do
  let x ← .ofOption .mismatchedTypes (i.variant.get v)
  .ofOption .domain (i.narrow x)

/-- The payload is of the type itself. -/
def exact (c : Variant α) : Impl α α := ⟨c, id, some, by simp [eq_comm]⟩

end Impl

namespace Value

def getBoolean : Value → Option Bool
  | .boolean b => some b
  | _ => Option.none

def getCount : Value → Option UInt64
  | .count n => some n
  | _ => Option.none

def getInteger : Value → Option Int64
  | .integer n => some n
  | _ => Option.none

def getReal : Value → Option F64
  | .real x => some x
  | _ => Option.none

def getTimespan : Value → Option Duration
  | .timespan d => some d
  | _ => Option.none

def getTimestamp : Value → Option OffsetDateTime
  | .timestamp t => some t
  | _ => Option.none

def getString : Value → Option String
  | .string s => some s
  | _ => Option.none

def getAddress : Value → Option IpAddr
  | .address a => some a
  | _ => Option.none

def getSubnet : Value → Option IpNetwork
  | .subnet n => some n
  | _ => Option.none

def getPort : Value → Option Port
  | .port p => some p
  | _ => Option.none

def getVector : Value → Option (List Value)
  | .vector xs => some xs
  | _ => Option.none

end Value

namespace Variant

def boolean : Variant Bool := ⟨.boolean, Value.getBoolean, by
  intro v b; cases v <;> simp [Value.getBoolean, eq_comm]⟩

def count : Variant UInt64 := ⟨.count, Value.getCount, by
  intro v n; cases v <;> simp [Value.getCount, eq_comm]⟩

def integer : Variant Int64 := ⟨.integer, Value.getInteger, by
  intro v n; cases v <;> simp [Value.getInteger, eq_comm]⟩

def real : Variant F64 := ⟨.real, Value.getReal, by
  intro v x; cases v <;> simp [Value.getReal, eq_comm]⟩

def timespan : Variant Duration := ⟨.timespan, Value.getTimespan, by
  intro v d; cases v <;> simp [Value.getTimespan, eq_comm]⟩

def timestamp : Variant OffsetDateTime := ⟨.timestamp, Value.getTimestamp, by
  intro v t; cases v <;> simp [Value.getTimestamp, eq_comm]⟩

def string : Variant String := ⟨.string, Value.getString, by
  intro v s; cases v <;> simp [Value.getString, eq_comm]⟩

def address : Variant IpAddr := ⟨.address, Value.getAddress, by
  intro v a; cases v <;> simp [Value.getAddress, eq_comm]⟩

def subnet : Variant IpNetwork := ⟨.subnet, Value.getSubnet, by
  intro v n; cases v <;> simp [Value.getSubnet, eq_comm]⟩

def port : Variant Port := ⟨.port, Value.getPort, by
  intro v p; cases v <;> simp [Value.getPort, eq_comm]⟩

end Variant

/-- The types that `impl_T!` is applied to. -/
inductive Scalar where
  | bool
  | u64
  | u32
  | u16
  | u8
  | i64
  | i32
  | i16
  | i8
  | f64
  | duration
  | offsetDateTime
  | string
  | ipAddr
  | ipNetwork
  | port
  deriving DecidableEq

namespace Scalar

def Carrier : Scalar → Type
  | .bool => Bool
  | .u64 => UInt64
  | .u32 => UInt32
  | .u16 => UInt16
  | .u8 => UInt8
  | .i64 => Int64
  | .i32 => Int32
  | .i16 => Int16
  | .i8 => Int8
  | .f64 => F64
  | .duration => Duration
  | .offsetDateTime => OffsetDateTime
  | .string => String
  | .ipAddr => IpAddr
  | .ipNetwork => IpNetwork
  | .port => Port

/-- What the variant of a type holds. -/
def Payload : Scalar → Type
  | .u64 | .u32 | .u16 | .u8 => UInt64
  | .i64 | .i32 | .i16 | .i8 => Int64
  | s => s.Carrier

theorem bmod_eq_iff {k : ℕ} {n m : ℤ} (h1 : -2 ^ k ≤ m) (h2 : m < 2 ^ k) :
    (-2 ^ k ≤ n ∧ n < 2 ^ k) ∧ n.bmod (2 ^ (k + 1)) = m ↔ m = n := by
  have key : ∀ x : ℤ, -2 ^ k ≤ x → x < 2 ^ k → x.bmod (2 ^ (k + 1)) = x := by
    intro x hx1 hx2
    refine Int.bmod_eq_of_le ?_ ?_ <;> push_cast <;> omega
  refine ⟨?_, ?_⟩
  · rintro ⟨⟨hn1, hn2⟩, hm⟩
    rw [← hm, key n hn1 hn2]
  · rintro rfl
    exact ⟨⟨h1, h2⟩, key m h1 h2⟩

def u32Impl : Impl UInt32 UInt64 where
  variant := .count
  widen := UInt32.toUInt64
  narrow n := if n.toNat < 2 ^ 32 then some n.toUInt32 else none
  narrow_eq_some n m := by
    simp only [Option.ite_none_right_eq_some, Option.some.injEq, ← UInt64.toNat_inj, ← UInt32.toNat_inj,
      UInt64.toNat_toUInt32, UInt32.toNat_toUInt64]
    have := m.toNat_lt
    omega

def u16Impl : Impl UInt16 UInt64 where
  variant := .count
  widen := UInt16.toUInt64
  narrow n := if n.toNat < 2 ^ 16 then some n.toUInt16 else none
  narrow_eq_some n m := by
    simp only [Option.ite_none_right_eq_some, Option.some.injEq, ← UInt64.toNat_inj, ← UInt16.toNat_inj,
      UInt64.toNat_toUInt16, UInt16.toNat_toUInt64]
    have := m.toNat_lt
    omega

def u8Impl : Impl UInt8 UInt64 where
  variant := .count
  widen := UInt8.toUInt64
  narrow n := if n.toNat < 2 ^ 8 then some n.toUInt8 else none
  narrow_eq_some n m := by
    simp only [Option.ite_none_right_eq_some, Option.some.injEq, ← UInt64.toNat_inj, ← UInt8.toNat_inj,
      UInt64.toNat_toUInt8, UInt8.toNat_toUInt64]
    have := m.toNat_lt
    omega

def i32Impl : Impl Int32 Int64 where
  variant := .integer
  widen := Int32.toInt64
  narrow n := if -2 ^ 31 ≤ n.toInt ∧ n.toInt < 2 ^ 31 then some n.toInt32 else none
  narrow_eq_some n m := by
    simp only [Option.ite_none_right_eq_some, Option.some.injEq, ← Int64.toInt_inj, ← Int32.toInt_inj,
      Int64.toInt_toInt32, Int32.toInt_toInt64]
    exact bmod_eq_iff m.le_toInt m.toInt_lt

def i16Impl : Impl Int16 Int64 where
  variant := .integer
  widen := Int16.toInt64
  narrow n := if -2 ^ 15 ≤ n.toInt ∧ n.toInt < 2 ^ 15 then some n.toInt16 else none
  narrow_eq_some n m := by
    simp only [Option.ite_none_right_eq_some, Option.some.injEq, ← Int64.toInt_inj, ← Int16.toInt_inj,
      Int64.toInt_toInt16, Int16.toInt_toInt64]
    exact bmod_eq_iff m.le_toInt m.toInt_lt

def i8Impl : Impl Int8 Int64 where
  variant := .integer
  widen := Int8.toInt64
  narrow n := if -2 ^ 7 ≤ n.toInt ∧ n.toInt < 2 ^ 7 then some n.toInt8 else none
  narrow_eq_some n m := by
    simp only [Option.ite_none_right_eq_some, Option.some.injEq, ← Int64.toInt_inj, ← Int8.toInt_inj,
      Int64.toInt_toInt8, Int8.toInt_toInt64]
    exact bmod_eq_iff m.le_toInt m.toInt_lt

/-- The conversions of a type, as the macro is called for it. -/
def impl : (s : Scalar) → Impl s.Carrier s.Payload
  | .bool => .exact .boolean
  | .u64 => .exact .count
  | .u32 => u32Impl
  | .u16 => u16Impl
  | .u8 => u8Impl
  | .i64 => .exact .integer
  | .i32 => i32Impl
  | .i16 => i16Impl
  | .i8 => i8Impl
  | .f64 => .exact .real
  | .duration => .exact .timespan
  | .offsetDateTime => .exact .timestamp
  | .string => .exact .string
  | .ipAddr => .exact .address
  | .ipNetwork => .exact .subnet
  | .port => .exact .port

end Scalar

mutual
/-- What a field of a derived struct may hold: a scalar, or a derived struct again. -/
inductive Ty where
  | scalar (s : Scalar)
  | record (fields : Fields)
/-- The fields of a struct, `optional` where their types look like `Option`. -/
inductive Fields where
  | nil
  | required (ty : Ty) (rest : Fields)
  | optional (ty : Ty) (rest : Fields)
end

mutual
def Ty.Carrier : Ty → Type
  | .scalar s => s.Carrier
  | .record fields => fields.Carrier
def Fields.Carrier : Fields → Type
  | .nil => Unit
  | .required ty rest => ty.Carrier × rest.Carrier
  | .optional ty rest => Option ty.Carrier × rest.Carrier
end

mutual
/-- `From<#name> for Value`. -/
def Ty.toValue : (ty : Ty) → ty.Carrier → Value
  | .scalar s, a => s.impl.toValue a
  | .record fields, r => .vector (fields.toValues r)
def Fields.toValues : (fields : Fields) → fields.Carrier → List Value
  | .nil, _ => []
  | .required ty rest, r => ty.toValue r.1 :: rest.toValues r.2
  | .optional ty rest, r =>
    (match r.1 with
      | some x => ty.toValue x
      | none => .none) :: rest.toValues r.2
end

/-- `xs.next().unwrap_or(Value::None)` and what is left of the iterator. -/
def next : List Value → Value × List Value
  | [] => (.none, [])
  | x :: xs => (x, xs)

/-- `None` is an absent field, anything else a present one. -/
def tryOptional {α : Type} (tryFrom : Value → Outcome ConversionError α) :
    Value → Outcome ConversionError (Option α)
  | .none => .ok none
  | v => do
    let x ← tryFrom v
    pure (some x)

mutual
/-- `TryFrom<Value> for #name`. -/
def Ty.tryFrom : (ty : Ty) → Value → Outcome ConversionError ty.Carrier
  | .scalar s, v => s.impl.tryFrom v
  | .record fields, v => do
    let xs ← .ofOption .mismatchedTypes v.getVector
    fields.tryInit xs
/-- The fields are initialised one after the other from one iterator. -/
def Fields.tryInit : (fields : Fields) → List Value → Outcome ConversionError fields.Carrier
  | .nil, _ => .ok ()
  | .required ty rest, xs => do
    let x ← ty.tryFrom (next xs).1
    let r ← rest.tryInit (next xs).2
    pure (x, r)
  | .optional ty rest, xs => do
    let x ← tryOptional ty.tryFrom (next xs).1
    let r ← rest.tryInit (next xs).2
    pure (x, r)
end

end ZWS
