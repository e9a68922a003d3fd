import ZeekWebSocket.Spec.Value

/-! Text forms of the leaf values: timespans, timestamps and ports, which this crate
writes and reads itself, and the parts of other crates it relies on for the rest. -/

namespace ZWS

open Base

/-- What comes from `std`, `ipnetwork`, `time`, `serde_json` and the machine's clock. -/
structure Platform where
  formatAddr : IpAddr → String
  parseAddr : String → Option IpAddr
  formatNetwork : IpNetwork → String
  parseNetwork : String → Option IpNetwork
  formatDateTime : PrimitiveDateTime → Option String
  parseDateTime : String → Option PrimitiveDateTime
  /-- `UtcOffset::current_local_offset`, which fails where the offset cannot be determined. -/
  localOffset : Option UtcOffset
  renderJson : Json → String
  parseJson : ByteArray → Option Json

/-- Parsing undoes formatting for addresses, networks and local date-times. -/
structure Platform.RoundTrips (P : Platform) : Prop where
  addr : ∀ a, P.parseAddr (P.formatAddr a) = some a
  network : ∀ n, P.parseNetwork (P.formatNetwork n) = some n
  dateTime : ∀ d, ∃ s, P.formatDateTime d = some s ∧ P.parseDateTime s = some d

inductive ParseError where
  | invalidPort (s : String)
  | invalidPortNumber (s : String)
  | invalidProtocol (s : String)
  | invalidTimespanUnit (s : String)
  deriving DecidableEq

/-- What a deserializer reports: the errors of this crate, of the parsers it calls, and of serde. -/
inductive DecodeError where
  | parse (e : ParseError)
  | parseInt (e : IntErrorKind)
  | address (s : String)
  | network (s : String)
  | dateTime (s : String)
  | indeterminateOffset
  | invalidType
  | invalidValue
  | invalidLength (n : ℕ)
  | unknownVariant (s : String)
  | missingField (field : String)
  | duplicateField (field : String)
  deriving DecidableEq

/-- What a serializer reports. The first is `SerializationError::NotRepresentable`, whose text
names the duration. -/
inductive EncodeError where
  | notRepresentable (d : Duration)
  | indeterminateOffset
  | format
  deriving DecidableEq

namespace Timespan

inductive Unit where
  | ns
  | us
  | ms
  | s
  | min
  | h
  | d
  deriving DecidableEq

def Unit.fromStr : String → Except ParseError Unit
  | "ns" => .ok .ns
  | "us" => .ok .us
  | "ms" => .ok .ms
  | "s" => .ok .s
  | "min" => .ok .min
  | "h" => .ok .h
  | "d" => .ok .d
  | text => .error (.invalidTimespanUnit text)

def serialize (d : Duration) : Except EncodeError String :=
  if d.subsecNanoseconds = 0 then .ok (d.wholeSeconds.toInt.repr ++ "s")
  else if FitsI64 d.wholeNanoseconds then .ok (d.wholeNanoseconds.repr ++ "ns")
  else .error (.notRepresentable d)

/-- The index, in characters, of the first one that is neither `-` nor a digit. -/
def unitStart (s : List Char) : ℕ := (s.findIdx? fun c => c ≠ '-' ∧ !c.isDigit).getD 0

/-- `num` of a unit; minutes, hours and days multiply. -/
def Unit.duration (num : Int64) : Unit → Outcome DecodeError Duration
  | .ns => .ok (.ofNanoseconds num)
  | .us => .ok (.ofMicroseconds num)
  | .ms => .ok (.ofMilliseconds num)
  | .s => .ok (.ofSeconds num)
  | .min => Duration.ofMinutes num
  | .h => Duration.ofHours num
  | .d => Duration.ofDays num

def deserialize (s : String) : Outcome DecodeError Duration := do
  -- both slices are cut at this offset, in bytes
  let (num, unit) ← .expect (splitAtByte (unitStart s.toList) s.toList)
  let num ← (Outcome.ofExcept (parseI64 num)).mapErr .parseInt
  let unit ← (Outcome.ofExcept (Unit.fromStr (.ofList unit))).mapErr .parse
  unit.duration num

end Timespan

namespace Timestamp

def serialize (P : Platform) (t : OffsetDateTime) : Outcome EncodeError String := do
  let offset ← .ofOption .indeterminateOffset P.localOffset
  let t ← t.toOffset offset
  .ofOption .format (P.formatDateTime t.localTime)

def deserialize (P : Platform) (s : String) : Outcome DecodeError OffsetDateTime := do
  let time ← .ofOption (.dateTime s) (P.parseDateTime s)
  let offset ← .ofOption .indeterminateOffset P.localOffset
  pure (time.assumeOffset offset)

end Timestamp

def Protocol.toStr : Protocol → String
  | .tcp => "tcp"
  | .udp => "udp"
  | .icmp => "icmp"
  | .unknown => "?"

def Protocol.fromStr : String → Except ParseError Protocol
  | "tcp" => .ok .tcp
  | "udp" => .ok .udp
  | "icmp" => .ok .icmp
  | "?" => .ok .unknown
  | s => .error (.invalidProtocol s)

def Port.toStr (p : Port) : String :=
  (p.number.toNat : ℤ).repr ++ "/" ++ p.protocol.toStr

def Port.fromStr (s : String) : Except ParseError Port :=
  match splitOnce '/' s.toList with
  | none => .error (.invalidPort s)
  | some (number, proto) =>
    match parseU16 number with
    | .error _ => .error (.invalidPortNumber (.ofList number))
    | .ok n => (Protocol.fromStr (.ofList proto)).map fun p => ⟨n, p⟩

end ZWS
