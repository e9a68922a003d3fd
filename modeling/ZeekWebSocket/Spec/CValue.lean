import ZeekWebSocket.Library.Bytes
import ZeekWebSocket.Spec.Message

/-! The values of the C API: how a program makes them, and what it can read of them. A call that
returns `false` or `NULL` is `none`, and leaves alone what its out-parameter points to. Where a
value is consumed, only what the program owns can be read; what a list or a table holds is lent. -/

namespace ZWS.C

open Base

/-- The bytes of the memory, from address 0 on. -/
abbrev Memory := List UInt8

/-- A pointer to bytes that end with a NUL. -/
structure CStr (m : Memory) where
  address : ℕ
  terminated : 0 ∈ m.drop address

/-- A borrowed string. -/
structure Str where
  address : ℕ
  length : ℕ

def Memory.bytes (m : Memory) (s : Str) : Option (List UInt8) :=
  if s.address + s.length ≤ m.length then some ((m.drop s.address).take s.length) else none

/-- What a borrowed string reads as. -/
def Memory.text (m : Memory) (s : Str) : Option String :=
  (m.bytes s).bind fun bytes => String.fromUTF8? ⟨bytes.toArray⟩

namespace CStr

variable {m : Memory} (p : CStr m)

/-- `CStr::from_ptr`, up to the first NUL. -/
def fromPtr : Str := ⟨p.address, ((m.drop p.address).takeWhile (· ≠ 0)).length⟩

def text : Option String := m.text p.fromPtr

/-- `to_str`, which does not copy. -/
def toStr : Option Str := p.text.map fun _ => p.fromPtr

end CStr

inductive ValueType where
  | none
  | boolean
  | count
  | integer
  | real
  | timespan
  | timestamp
  | string
  | enumValue
  | address
  | subnet
  | port
  | vector
  | set
  | table
  deriving DecidableEq

/-- The byte order of the machine. -/
inductive Endian where
  | little
  | big

/-- `to_ne_bytes`. -/
def Endian.toNeBytes (e : Endian) (x : BitVec 32) : List UInt8 :=
  match e with
  | .little => bytesLE 4 x.toNat
  | .big => (bytesLE 4 x.toNat).reverse

def swapBytes (x : BitVec 32) : BitVec 32 := .ofNat 32 (ofBytesLE (bytesLE 4 x.toNat).reverse)

/-- `to_be`. -/
def Endian.toBe (e : Endian) (x : BitVec 32) : BitVec 32 :=
  match e with
  | .little => swapBytes x
  | .big => x

/-- `in_addr`, a number in memory whose bytes are in network order. -/
structure InAddr where
  sAddr : BitVec 32

structure In6Addr where
  s6Addr : List UInt8
  length : s6Addr.length = 16

inductive Protocol where
  | tcp
  | udp
  | icmp
  | unknown

def Protocol.toZeek : Protocol → ZWS.Protocol
  | .tcp => .tcp
  | .udp => .udp
  | .icmp => .icmp
  | .unknown => .unknown

def Protocol.ofZeek : ZWS.Protocol → Protocol
  | .tcp => .tcp
  | .udp => .udp
  | .icmp => .icmp
  | .unknown => .unknown

structure Port where
  number : UInt16
  protocol : Protocol

structure Subnet where
  addr : IpAddr
  prefixLen : UInt8

structure TableEntry where
  key : Value
  value : Value

/-! Addresses, from the bytes in network order. -/

def addressNewV4 (e : Endian) (data : InAddr) : IpAddr :=
  .v4 (.ofNat 32 (ofBytesLE (e.toNeBytes data.sAddr).reverse))

def addressNewV6 (data : In6Addr) : IpAddr := .v6 (.ofNat 128 (ofBytesLE data.s6Addr.reverse))

def addressIsV6 : IpAddr → Bool
  | .v4 _ => false
  | .v6 _ => true

def addressAsV4 (e : Endian) : IpAddr → Option InAddr
  | .v4 addr => some ⟨e.toBe addr⟩
  | .v6 _ => none

def addressAsV6 : IpAddr → Option In6Addr
  | .v4 _ => none
  | .v6 addr => some ⟨(bytesLE 16 addr.toNat).reverse, by simp⟩

/-! Making values. -/

def valueNewNone : Value := .none

def valueNewBoolean (data : Bool) : Value := .boolean data

def valueNewCount (data : UInt64) : Value := .count data

def valueNewInteger (data : Int64) : Value := .integer data

def valueNewReal (data : F64) : Value := .real data

def valueNewTimespan (nanos : Int64) : Value := .timespan (.ofNanoseconds nanos)

def valueNewTimestamp (nanosUtc : Int64) : Option Value :=
  (OffsetDateTime.ofUnixNanos nanosUtc.toInt).map .timestamp

def valueNewString (data : ByteArray) : Option Value := (String.fromUTF8? data).map .string

def valueNewEnum (data : ByteArray) : Option Value := (String.fromUTF8? data).map .enumValue

def valueNewAddress (data : IpAddr) : Value := .address data

def valueNewSubnet (addr : IpAddr) (prefixLen : UInt8) : Option Value :=
  (IpNetwork.new addr prefixLen).toOption.map .subnet

def valueNewPort (port : Port) : Value := .port ⟨port.number, port.protocol.toZeek⟩

def valueNewVector (values : List Value) : Value := .vector values

-- both trees keep the last of equal elements that an iterator gives
def valueNewSet (values : List Value) : Value := .set (collectBy Value.cmp keepNew values)

def valueNewTable (values : List TableEntry) : Value :=
  .table (collectBy (byKey Value.cmp) keepNew (values.map fun x => (x.key, x.value)))

/-! Reading values. -/

def valueType : Value → ValueType
  | .none => .none
  | .boolean _ => .boolean
  | .count _ => .count
  | .integer _ => .integer
  | .real _ => .real
  | .timespan _ => .timespan
  | .timestamp _ => .timestamp
  | .string _ => .string
  | .enumValue _ => .enumValue
  | .address _ => .address
  | .subnet _ => .subnet
  | .port _ => .port
  | .vector _ => .vector
  | .set _ => .set
  | .table _ => .table

def valueAsBool : Value → Option Bool
  | .boolean x => some x
  | _ => none

def valueAsCount : Value → Option UInt64
  | .count x => some x
  | _ => none

def valueAsInteger : Value → Option Int64
  | .integer x => some x
  | _ => none

def valueAsReal : Value → Option F64
  | .real x => some x
  | _ => none

def tryI64 (n : ℤ) : Option Int64 := if FitsI64 n then some (.ofInt n) else none

def valueAsTimespan : Value → Option Int64
  | .timespan x => tryI64 x.wholeNanoseconds
  | _ => none

def valueAsTimestamp : Value → Option Int64
  | .timestamp x => tryI64 x.unixNanos
  | _ => none

/-- The bytes between the pointer that is set and the size that is returned. -/
def valueAsString : Value → ByteArray
  | .string x => x.toUTF8
  | _ => .empty

def valueAsEnumvalue : Value → ByteArray
  | .enumValue x => x.toUTF8
  | _ => .empty

def valueAsAddress : Value → Option IpAddr
  | .address addr => some addr
  | _ => none

def valueAsSubnet : Value → Option Subnet
  | .subnet subnet => some ⟨subnet.ip, subnet.prefixLen⟩
  | _ => none

def valueAsPort : Value → Option Port
  | .port port => some ⟨port.number, .ofZeek port.protocol⟩
  | _ => none

def valueAsVector : Value → Option (List Value)
  | .vector xs => some xs
  | _ => none

def valueAsSet : Value → Option (List Value)
  | .set xs => some xs
  | _ => none

/-- `Table` is opaque to a program. -/
def valueAsTable : Value → Option (List (Value × Value))
  | .table xs => some xs
  | _ => none

def listSize (values : List Value) : ℕ := values.length

def listEntry (values : List Value) (n : ℕ) : Option Value := values[n]?

def tableKeys (table : List (Value × Value)) : List Value := table.map Prod.fst

def tableGet (table : List (Value × Value)) (key : Value) : Option Value :=
  (table.find? fun e => decide (e.1.Equal key)).map Prod.snd

/-! Events. -/

def eventNew {m : Memory} (name : CStr m) (args : List Value) (metadata : Option (List Value)) :
    Option Event :=
  name.text.map fun name =>
    match metadata with
    | some metadata => (Event.new name args).withMetadata metadata
    | none => Event.new name args

def eventArgs (event : Event) : List Value := event.args

def eventMetadata (event : Event) : List Value := event.metadata

end ZWS.C
