import ZeekWebSocket.Spec.Value

/-! The values of the Python bindings. They have variants of their own for records, declare
the others in another order, and so sort the same sets and tables differently. -/

namespace ZWS

open Base

namespace Python

inductive Protocol where
  | unknown
  | tcp
  | udp
  | icmp
  deriving DecidableEq

inductive Value where
  | boolean (b : Bool)
  | count (n : UInt64)
  | integer (n : Int64)
  | real (x : F64)
  | timespan (d : Duration)
  | timestamp (t : OffsetDateTime)
  | address (a : IpAddr)
  | subnet (a : IpAddr) (len : UInt8)
  | port (number : UInt16) (protocol : Protocol)
  | vector (xs : List Value)
  | set (xs : List Value)
  | table (es : List (Value × Value))
  | record (fs : List (String × Value))
  | string (s : String)
  | enum (s : String)
  | none

def Protocol.discriminant : Protocol → ℕ
  | .unknown => 1
  | .tcp => 2
  | .udp => 3
  | .icmp => 4

/-- `From<Protocol> for zeek_websocket_types::Protocol`. -/
def Protocol.toRust : Protocol → ZWS.Protocol
  | .unknown => .unknown
  | .tcp => .tcp
  | .udp => .udp
  | .icmp => .icmp

def Protocol.ofRust : ZWS.Protocol → Protocol
  | .tcp => .tcp
  | .udp => .udp
  | .icmp => .icmp
  | .unknown => .unknown

namespace Value

/-- The place of a variant in the declaration of the enum. -/
def discriminant : Value → ℕ
  | .boolean _ => 0
  | .count _ => 1
  | .integer _ => 2
  | .real _ => 3
  | .timespan _ => 4
  | .timestamp _ => 5
  | .address _ => 6
  | .subnet _ _ => 7
  | .port _ _ => 8
  | .vector _ => 9
  | .set _ => 10
  | .table _ => 11
  | .record _ => 12
  | .string _ => 13
  | .enum _ => 14
  | .none => 15

mutual
/-- The derived order: variants as declared, then the payload, containers element by element. -/
def cmp : Value → Value → Ordering
  | .boolean a, .boolean b => compare a.toNat b.toNat
  | .count a, .count b => compare a.toNat b.toNat
  | .integer a, .integer b => compare a.toInt b.toInt
  | .real a, .real b => compare a.orderKey b.orderKey
  | .timespan a, .timespan b => a.cmp b
  | .timestamp a, .timestamp b => compare a.unixNanos b.unixNanos
  | .address a, .address b => a.cmp b
  | .subnet a m, .subnet b n => (a.cmp b).then (compare m.toNat n.toNat)
  | .port m p, .port n q =>
    (compare m.toNat n.toNat).then (compare p.discriminant q.discriminant)
  | .vector xs, .vector ys => cmpSeq xs ys
  | .set xs, .set ys => cmpSeq xs ys
  | .table es, .table fs => cmpEntries es fs
  | .record fs, .record gs => cmpFields fs gs
  | .string a, .string b => compareStr a b
  | .enum a, .enum b => compareStr a b
  | .none, .none => .eq
  | v, w => compare v.discriminant w.discriminant
termination_by structural v => v
def cmpSeq : List Value → List Value → Ordering
  | [], [] => .eq
  | [], _ :: _ => .lt
  | _ :: _, [] => .gt
  | x :: xs, y :: ys => (cmp x y).then (cmpSeq xs ys)
termination_by structural v => v
def cmpEntries : List (Value × Value) → List (Value × Value) → Ordering
  | [], [] => .eq
  | [], _ :: _ => .lt
  | _ :: _, [] => .gt
  | (k, v) :: es, (l, w) :: fs => ((cmp k l).then (cmp v w)).then (cmpEntries es fs)
termination_by structural v => v
def cmpFields : List (String × Value) → List (String × Value) → Ordering
  | [], [] => .eq
  | [], _ :: _ => .lt
  | _ :: _, [] => .gt
  | (k, v) :: fs, (l, w) :: gs => ((compareStr k l).then (cmp v w)).then (cmpFields fs gs)
termination_by structural v => v
end

/-- `==`, which sees of a timestamp its instant and of a real its value. -/
def Equal (v w : Value) : Prop := cmp v w = .eq

instance (v w : Value) : Decidable (Equal v w) := inferInstanceAs (Decidable (_ = _))

mutual
/-- The value and everything inside it. -/
def parts : Value → List Value
  | .vector xs => .vector xs :: partsSeq xs
  | .set xs => .set xs :: partsSeq xs
  | .table es => .table es :: partsEntries es
  | .record fs => .record fs :: partsFields fs
  | v => [v]
def partsSeq : List Value → List Value
  | [] => []
  | x :: xs => parts x ++ partsSeq xs
def partsEntries : List (Value × Value) → List Value
  | [] => []
  | (k, v) :: es => parts k ++ parts v ++ partsEntries es
def partsFields : List (String × Value) → List Value
  | [] => []
  | (_, v) :: fs => parts v ++ partsFields fs
end

/-- What a B-tree guarantees of its own iteration order. -/
def NodeOrdered : Value → Prop
  | .set xs => Ascending cmp xs
  | .table es => Ascending (byKey cmp) es
  | .record fs => Ascending (byKey compareStr) fs
  | _ => True

instance : (v : Value) → Decidable v.NodeOrdered
  | .set xs => inferInstanceAs (Decidable (List.Pairwise _ xs))
  | .table es => inferInstanceAs (Decidable (List.Pairwise _ es))
  | .record fs => inferInstanceAs (Decidable (List.Pairwise _ fs))
  | .none | .boolean _ | .count _ | .integer _ | .real _ | .timespan _ | .timestamp _ | .string _
  | .enum _ | .address _ | .subnet _ _ | .port _ _ | .vector _ => isTrue trivial

/-- Every set, table and record inside the value is one that a B-tree can hold. -/
def Canonical (v : Value) : Prop := ∀ w ∈ v.parts, w.NodeOrdered

instance (v : Value) : Decidable v.Canonical := inferInstanceAs (Decidable (∀ w ∈ v.parts, _))

mutual
/-- `TryFrom<Value> for RustValue`, whose errors become a `ValueError`. Records lose their
field names. -/
def toRust : Value → Outcome IpNetworkError ZWS.Value
  | .boolean b => .ok (.boolean b)
  | .count n => .ok (.count n)
  | .integer n => .ok (.integer n)
  | .real x => .ok (.real x)
  | .timespan d => .ok (.timespan d)
  | .timestamp t => .ok (.timestamp t)
  | .string s => .ok (.string s)
  | .vector xs => do
    let vs ← toRustSeq xs
    pure (.vector vs)
  -- both trees keep the last of equal elements that an iterator gives
  | .set xs => do
    let vs ← toRustSeq xs
    pure (.set (collectBy ZWS.Value.cmp keepNew vs))
  | .table es => do
    let es ← toRustEntries es
    pure (.table (collectBy (byKey ZWS.Value.cmp) keepNew es))
  | .record fs => do
    let vs ← toRustFields fs
    pure (.vector vs)
  | .address a => .ok (.address a)
  | .port n p => .ok (.port ⟨n, p.toRust⟩)
  | .subnet a len => do
    let n ← .ofExcept (IpNetwork.new a len)
    pure (.subnet n)
  | .enum s => .ok (.enumValue s)
  | .none => .ok .none
def toRustSeq : List Value → Outcome IpNetworkError (List ZWS.Value)
  | [] => .ok []
  | x :: xs => do
    let v ← toRust x
    let vs ← toRustSeq xs
    pure (v :: vs)
def toRustEntries : List (Value × Value) → Outcome IpNetworkError (List (ZWS.Value × ZWS.Value))
  | [] => .ok []
  | (k, v) :: es => do
    let k ← toRust k
    let v ← toRust v
    let es ← toRustEntries es
    pure ((k, v) :: es)
def toRustFields : List (String × Value) → Outcome IpNetworkError (List ZWS.Value)
  | [] => .ok []
  | (_, v) :: fs => do
    let v ← toRust v
    let vs ← toRustFields fs
    pure (v :: vs)
end

mutual
/-- `From<RustValue> for Value`. -/
def ofRust : ZWS.Value → Value
  | .boolean b => .boolean b
  | .count n => .count n
  | .integer n => .integer n
  | .real x => .real x
  | .string s => .string s
  | .enumValue s => .enum s
  | .timespan d => .timespan d
  | .timestamp t => .timestamp t
  | .address a => .address a
  | .subnet n => .subnet n.ip n.prefixLen
  | .port p => .port p.number (.ofRust p.protocol)
  | .vector xs => .vector (ofRustSeq xs)
  | .set xs => .set (collectBy cmp keepNew (ofRustSeq xs))
  | .table es => .table (collectBy (byKey cmp) keepNew (ofRustEntries es))
  | .none => .none
def ofRustSeq : List ZWS.Value → List Value
  | [] => []
  | x :: xs => ofRust x :: ofRustSeq xs
def ofRustEntries : List (ZWS.Value × ZWS.Value) → List (Value × Value)
  | [] => []
  | (k, v) :: es => (ofRust k, ofRust v) :: ofRustEntries es
end

/-- A value that holds no others. -/
def IsLeaf : Value → Prop
  | .vector _ | .set _ | .table _ | .record _ => False
  | _ => True

@[elab_as_elim]
theorem induct {P : Value → Prop} (leaf : ∀ v, v.IsLeaf → P v)
    (vector : ∀ xs, (∀ x ∈ xs, P x) → P (.vector xs))
    (set : ∀ xs, (∀ x ∈ xs, P x) → P (.set xs))
    (table : ∀ es, (∀ e ∈ es, P e.1 ∧ P e.2) → P (.table es))
    (record : ∀ fs, (∀ f ∈ fs, P f.2) → P (.record fs)) (v : Value) : P v :=
  @Value.rec P (fun xs => ∀ x ∈ xs, P x) (fun es => ∀ e ∈ es, P e.1 ∧ P e.2)
    (fun fs => ∀ f ∈ fs, P f.2) (fun e => P e.1 ∧ P e.2) (fun f => P f.2)
    (fun _ => leaf _ trivial) (fun _ => leaf _ trivial) (fun _ => leaf _ trivial)
    (fun _ => leaf _ trivial) (fun _ => leaf _ trivial) (fun _ => leaf _ trivial)
    (fun _ => leaf _ trivial) (fun _ _ => leaf _ trivial) (fun _ _ => leaf _ trivial)
    vector set table record (fun _ => leaf _ trivial) (fun _ => leaf _ trivial) (leaf _ trivial)
    (by simp) (fun _ _ h hs => List.forall_mem_cons.mpr ⟨h, hs⟩)
    (by simp) (fun _ _ h hs => List.forall_mem_cons.mpr ⟨h, hs⟩)
    (by simp) (fun _ _ h hs => List.forall_mem_cons.mpr ⟨h, hs⟩)
    (fun _ _ hk hv => ⟨hk, hv⟩) (fun _ _ hv => hv) v

end Value

end Python

end ZWS
