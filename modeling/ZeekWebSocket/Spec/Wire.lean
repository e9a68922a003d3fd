import ZeekWebSocket.Spec.Scalar

/-! The JSON form of a value: `Serialize` and `Deserialize` of `Value` and `TableEntry`
as derived from their attributes, with the hand-written codecs of the variants.

Reading follows the derived visitor: it takes the first two relevant keys, decodes the
content as soon as the tag is known and then looks for duplicates. Content that comes
before its tag is buffered, and what is read from a buffer is marked by `buf`. -/

namespace ZWS

open Base

/-- The variants by the names they have on the wire. -/
inductive Tag where
  | none
  | boolean
  | count
  | integer
  | real
  | timespan
  | timestamp
  | string
  | enumValue
  | address
  | subnet
  | port
  | vector
  | set
  | table
  deriving DecidableEq

def Tag.name : Tag → String
  | .none => "none"
  | .boolean => "boolean"
  | .count => "count"
  | .integer => "integer"
  | .real => "real"
  | .timespan => "timespan"
  | .timestamp => "timestamp"
  | .string => "string"
  | .enumValue => "enum-value"
  | .address => "address"
  | .subnet => "subnet"
  | .port => "port"
  | .vector => "vector"
  | .set => "set"
  | .table => "table"

def Tag.all : List Tag :=
  [.none, .boolean, .count, .integer, .real, .timespan, .timestamp, .string, .enumValue, .address,
    .subnet, .port, .vector, .set, .table]

def Tag.fromStr (s : String) : Outcome DecodeError Tag :=
  .ofOption (.unknownVariant s) (Tag.all.find? fun t => t.name = s)

def tagKey : String := "@data-type"

def contentKey : String := "data"

def tagged (t : Tag) (content : Json) : Json := .obj [(tagKey, .str t.name), (contentKey, content)]

/-- An `i64` in JSON text. -/
def Number.ofInt64 (n : Int64) : Number :=
  if h : n.toInt < 0 then .negInt n h else .posInt (.ofNat n.toInt.toNat)

namespace Value

def tag : Value → Tag
  | .none => .none
  | .boolean _ => .boolean
  | .count _ => .count
  | .integer _ => .integer
  | .real _ => .real
  | .timespan _ => .timespan
  | .timestamp _ => .timestamp
  | .string _ => .string
  | .enumValue _ => .enumValue
  | .address _ => .address
  | .subnet _ => .subnet
  | .port _ => .port
  | .vector _ => .vector
  | .set _ => .set
  | .table _ => .table

mutual
/-- The content of the tagged object a value becomes. -/
def encodeContent (P : Platform) : Value → Outcome EncodeError Json
  | .none => .ok (.obj [])
  | .boolean b => .ok (.bool b)
  | .count n => .ok (.num (.posInt n))
  | .integer n => .ok (.num (Number.ofInt64 n))
  -- `serde_json` has no text for NaN and the infinities
  | .real x => .ok (if h : x.isFinite then .num (.float x h) else .null)
  | .timespan d => do
    let s ← .ofExcept (Timespan.serialize d)
    pure (.str s)
  | .timestamp t => do
    let s ← Timestamp.serialize P t
    pure (.str s)
  | .string s => .ok (.str s)
  | .enumValue s => .ok (.str s)
  | .address a => .ok (.str (P.formatAddr a))
  | .subnet n => .ok (.str (P.formatNetwork n))
  | .port p => .ok (.str p.toStr)
  | .vector xs => do
    let js ← encodeSeq P xs
    pure (.arr js)
  | .set xs => do
    let js ← encodeSeq P xs
    pure (.arr js)
  | .table es => do
    let js ← encodeEntries P es
    pure (.arr js)
def encodeSeq (P : Platform) : List Value → Outcome EncodeError (List Json)
  | [] => .ok []
  | x :: xs => do
    let c ← encodeContent P x
    let js ← encodeSeq P xs
    pure (tagged x.tag c :: js)
/-- `serialize_table`: one `TableEntry` after the other. -/
def encodeEntries (P : Platform) : List (Value × Value) → Outcome EncodeError (List Json)
  | [] => .ok []
  | (k, v) :: es => do
    let ck ← encodeContent P k
    let cv ← encodeContent P v
    let js ← encodeEntries P es
    pure (.obj [("key", tagged k.tag ck), ("value", tagged v.tag cv)] :: js)
end

def encode (P : Platform) (v : Value) : Outcome EncodeError Json := do
  let c ← encodeContent P v
  pure (tagged v.tag c)

/-- A tag is a unit variant: its name, or an object with the name as its only key. A buffered
unit may also be an empty object. -/
def readTag (buf : Bool) : Json → Outcome DecodeError Tag
  | .str s => Tag.fromStr s
  | .obj [(s, .null)] => Tag.fromStr s
  | .obj [(s, .obj [])] => if buf then Tag.fromStr s else .err .invalidType
  | _ => .err .invalidType

/-- The content of the variants that hold no other values. -/
def decodeLeaf (P : Platform) : Tag → Json → Outcome DecodeError Value
  | .none, _ => .ok .none
  | .boolean, .bool b => .ok (.boolean b)
  | .count, .num (.posInt n) => .ok (.count n)
  | .count, .num (.negInt _ _) => .err .invalidValue
  | .integer, .num (.posInt n) =>
    if n.toNat < 2 ^ 63 then .ok (.integer (.ofInt n.toNat)) else .err .invalidValue
  | .integer, .num (.negInt n _) => .ok (.integer n)
  | .real, .num (.posInt n) => .ok (.real (.ofInt n.toNat))
  | .real, .num (.negInt n _) => .ok (.real (.ofInt n.toInt))
  | .real, .num (.float x _) => .ok (.real x)
  | .timespan, .str s => do
    let d ← Timespan.deserialize s
    pure (.timespan d)
  | .timestamp, .str s => do
    let t ← Timestamp.deserialize P s
    pure (.timestamp t)
  | .string, .str s => .ok (.string s)
  | .enumValue, .str s => .ok (.enumValue s)
  | .address, .str s => do
    let a ← .ofOption (.address s) (P.parseAddr s)
    pure (.address a)
  | .subnet, .str s => do
    let n ← .ofOption (.network s) (P.parseNetwork s)
    pure (.subnet n)
  | .port, .str s => do
    let p ← (Outcome.ofExcept (Port.fromStr s)).mapErr .parse
    pure (.port p)
  | _, _ => .err .invalidType

/-- Both keys were seen; a third relevant one is a duplicate. -/
def visitRemaining (v : Value) : List (String × Json) → Outcome DecodeError Value
  | [] => .ok v
  | (k, _) :: fs =>
    if k = tagKey then .err (.duplicateField tagKey)
    else if k = contentKey then .err (.duplicateField contentKey)
    else visitRemaining v fs

/-- The content came first and waits in a buffer for its tag. -/
def visitAfterContent (buf : Bool) (seed : Tag → Outcome DecodeError Value) :
    List (String × Json) → Outcome DecodeError Value
  | [] => .err (.missingField tagKey)
  | (k, j) :: fs =>
    if k = tagKey then do
      let t ← readTag buf j
      let v ← seed t
      visitRemaining v fs
    else if k = contentKey then .err (.duplicateField contentKey)
    else visitAfterContent buf seed fs

mutual
def decode (P : Platform) (buf : Bool) : Json → Outcome DecodeError Value
  | .obj fs => visitMap P buf fs
  | .arr [] => .err (.invalidLength 0)
  | .arr [t] => do
    let _ ← readTag buf t
    .err (.invalidLength 1)
  | .arr (t :: c :: rest) => do
    let t ← readTag buf t
    let v ← decodeContent P buf t c
    if rest.isEmpty then pure v else .err (.invalidLength (rest.length + 2))
  | _ => .err .invalidType
def visitMap (P : Platform) (buf : Bool) : List (String × Json) → Outcome DecodeError Value
  | [] => .err (.missingField tagKey)
  | (k, j) :: fs =>
    if k = tagKey then do
      let t ← readTag buf j
      visitAfterTag P buf t fs
    else if k = contentKey then visitAfterContent buf (fun t => decodeContent P true t j) fs
    else visitMap P buf fs
def visitAfterTag (P : Platform) (buf : Bool) (t : Tag) :
    List (String × Json) → Outcome DecodeError Value
  | [] => if t = .none then .ok .none else .err (.missingField contentKey)
  | (k, j) :: fs =>
    if k = tagKey then .err (.duplicateField tagKey)
    else if k = contentKey then do
      let v ← decodeContent P buf t j
      visitRemaining v fs
    else visitAfterTag P buf t fs
def decodeContent (P : Platform) (buf : Bool) (t : Tag) : Json → Outcome DecodeError Value
  | .arr js =>
    match t with
    | .vector => do
      let vs ← decodeSeq P buf js
      pure (.vector vs)
    | .set => do
      let vs ← decodeSeq P buf js
      -- `BTreeSet::insert` keeps the element that is there
      pure (.set (collectBy cmp keepOld vs))
    | .table => do
      let es ← decodeEntries P buf js
      -- `BTreeMap::from_iter` drops all but the last pair of a key
      pure (.table (collectBy (byKey cmp) keepNew es))
    | t => decodeLeaf P t (.arr js)
  | j => decodeLeaf P t j
def decodeSeq (P : Platform) (buf : Bool) : List Json → Outcome DecodeError (List Value)
  | [] => .ok []
  | j :: js => do
    let v ← decode P buf j
    let vs ← decodeSeq P buf js
    pure (v :: vs)
def decodeEntries (P : Platform) (buf : Bool) :
    List Json → Outcome DecodeError (List (Value × Value))
  | [] => .ok []
  | j :: js => do
    let e ← decodeEntry P buf j
    let es ← decodeEntries P buf js
    pure (e :: es)
def decodeEntry (P : Platform) (buf : Bool) : Json → Outcome DecodeError (Value × Value)
  | .obj fs => visitEntry P buf Option.none Option.none fs
  | .arr [] => .err (.invalidLength 0)
  | .arr [k] => do
    let _ ← decode P buf k
    .err (.invalidLength 1)
  | .arr (k :: v :: rest) => do
    let k ← decode P buf k
    let v ← decode P buf v
    if rest.isEmpty then pure (k, v) else .err (.invalidLength (rest.length + 2))
  | _ => .err .invalidType
def visitEntry (P : Platform) (buf : Bool) (key value : Option Value) :
    List (String × Json) → Outcome DecodeError (Value × Value)
  | [] =>
    match key, value with
    | some k, some v => .ok (k, v)
    | Option.none, _ => .err (.missingField "key")
    | some _, Option.none => .err (.missingField "value")
  | (f, j) :: fs =>
    if f = "key" then
      if key.isSome then .err (.duplicateField "key")
      else do
        let k ← decode P buf j
        visitEntry P buf (some k) value fs
    else if f = "value" then
      if value.isSome then .err (.duplicateField "value")
      else do
        let v ← decode P buf j
        visitEntry P buf key (some v) fs
    else visitEntry P buf key value fs
end

end Value

end ZWS
