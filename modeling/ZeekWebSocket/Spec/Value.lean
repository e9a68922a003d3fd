import ZeekWebSocket.Library.Json
import ZeekWebSocket.Library.Sorted
import ZeekWebSocket.Spec.Time

/-! The values of the Zeek API and the order that the derived `Ord` puts on them.
Sets and tables are held as the ascending lists that their B-trees iterate. -/

namespace ZWS

open Base

inductive IpAddr where
  | v4 (addr : BitVec 32)
  | v6 (addr : BitVec 128)
  deriving DecidableEq

/-- `ipnetwork::IpNetwork`; no network has a longer mask than its family. -/
inductive IpNetwork where
  | v4 (addr : BitVec 32) (mask : Fin 33)
  | v6 (addr : BitVec 128) (mask : Fin 129)
  deriving DecidableEq

/-- What `IpNetwork::new` reports. -/
inductive IpNetworkError where
  | invalidPrefix
  deriving DecidableEq

namespace IpNetwork

/-- `IpNetwork::new` refuses a mask that is longer than addresses of the family. -/
def new : IpAddr → UInt8 → Except IpNetworkError IpNetwork
  | .v4 a, len =>
    if h : len.toNat < 33 then .ok (.v4 a ⟨len.toNat, h⟩) else .error .invalidPrefix
  | .v6 a, len =>
    if h : len.toNat < 129 then .ok (.v6 a ⟨len.toNat, h⟩) else .error .invalidPrefix

def ip : IpNetwork → IpAddr
  | .v4 a _ => .v4 a
  | .v6 a _ => .v6 a

/-- `IpNetwork::prefix`. -/
def prefixLen : IpNetwork → UInt8
  | .v4 _ m => .ofNat m.val
  | .v6 _ m => .ofNat m.val

theorem new_ip_prefixLen (n : IpNetwork) : new n.ip n.prefixLen = .ok n := by
  cases n with
  | v4 a m =>
    have hm : (UInt8.ofNat m.val).toNat = m.val :=
      UInt8.toNat_ofNat_of_lt' (m.isLt.trans (by decide))
    simp [ip, prefixLen, new, hm]
  | v6 a m =>
    have hm : (UInt8.ofNat m.val).toNat = m.val :=
      UInt8.toNat_ofNat_of_lt' (m.isLt.trans (by decide))
    simp [ip, prefixLen, new, hm]

end IpNetwork

inductive Protocol where
  | tcp
  | udp
  | icmp
  | unknown
  deriving DecidableEq

structure Port where
  number : UInt16
  protocol : Protocol
  deriving DecidableEq

inductive Value where
  | none
  | boolean (b : Bool)
  | count (n : UInt64)
  | integer (n : Int64)
  | real (x : F64)
  | timespan (d : Duration)
  | timestamp (t : OffsetDateTime)
  | string (s : String)
  | enumValue (s : String)
  | address (a : IpAddr)
  | subnet (n : IpNetwork)
  | port (p : Port)
  | vector (xs : List Value)
  | set (xs : List Value)
  | table (es : List (Value × Value))

/-! Comparison of the leaf types. -/

def IpAddr.cmp : IpAddr → IpAddr → Ordering
  | .v4 a, .v4 b => compare a.toNat b.toNat
  | .v4 _, .v6 _ => .lt
  | .v6 _, .v4 _ => .gt
  | .v6 a, .v6 b => compare a.toNat b.toNat

def IpNetwork.cmp : IpNetwork → IpNetwork → Ordering
  | .v4 a m, .v4 b n => (compare a.toNat b.toNat).then (compare m.val n.val)
  | .v4 _ _, .v6 _ _ => .lt
  | .v6 _ _, .v4 _ _ => .gt
  | .v6 a m, .v6 b n => (compare a.toNat b.toNat).then (compare m.val n.val)

/-- The place of a protocol in its declaration. -/
def Protocol.discriminant : Protocol → ℕ
  | .tcp => 0
  | .udp => 1
  | .icmp => 2
  | .unknown => 3

def Port.cmp (p q : Port) : Ordering :=
  (compare p.number.toNat q.number.toNat).then
    (compare p.protocol.discriminant q.protocol.discriminant)

def Duration.cmp (d e : Duration) : Ordering :=
  (compare d.seconds.toInt e.seconds.toInt).then (compare d.nanoseconds e.nanoseconds)

/-- `str` compares bytes, which for UTF-8 is comparing code points. -/
def compareStr (s t : String) : Ordering :=
  compare (s.toList.map Char.toNat) (t.toList.map Char.toNat)

namespace Value

/-- The place of a variant in the declaration of the enum. -/
def discriminant : Value → ℕ
  | .none => 0
  | .boolean _ => 1
  | .count _ => 2
  | .integer _ => 3
  | .real _ => 4
  | .timespan _ => 5
  | .timestamp _ => 6
  | .string _ => 7
  | .enumValue _ => 8
  | .address _ => 9
  | .subnet _ => 10
  | .port _ => 11
  | .vector _ => 12
  | .set _ => 13
  | .table _ => 14

mutual
/-- The derived order: variants as declared, then the payload, containers element by element. -/
def cmp : Value → Value → Ordering
  | .none, .none => .eq
  | .boolean a, .boolean b => compare a.toNat b.toNat
  | .count a, .count b => compare a.toNat b.toNat
  | .integer a, .integer b => compare a.toInt b.toInt
  | .real a, .real b => compare a.orderKey b.orderKey
  | .timespan a, .timespan b => a.cmp b
  | .timestamp a, .timestamp b => compare a.unixNanos b.unixNanos
  | .string a, .string b => compareStr a b
  | .enumValue a, .enumValue b => compareStr a b
  | .address a, .address b => a.cmp b
  | .subnet a, .subnet b => a.cmp b
  | .port a, .port b => a.cmp b
  | .vector xs, .vector ys => cmpSeq xs ys
  | .set xs, .set ys => cmpSeq xs ys
  | .table es, .table fs => cmpEntries es fs
  | v, w => compare v.discriminant w.discriminant
def cmpSeq : List Value → List Value → Ordering
  | [], [] => .eq
  | [], _ :: _ => .lt
  | _ :: _, [] => .gt
  | x :: xs, y :: ys => (cmp x y).then (cmpSeq xs ys)
def cmpEntries : List (Value × Value) → List (Value × Value) → Ordering
  | [], [] => .eq
  | [], _ :: _ => .lt
  | _ :: _, [] => .gt
  | (k, v) :: es, (l, w) :: fs => ((cmp k l).then (cmp v w)).then (cmpEntries es fs)
end

/-- `==`. It sees of a timestamp its instant and of a real its value. -/
def Equal (v w : Value) : Prop := cmp v w = .eq

instance (v w : Value) : Decidable (Equal v w) := inferInstanceAs (Decidable (_ = _))

mutual
/-- The value and everything inside it, keys and values of tables included. -/
def parts : Value → List Value
  | .vector xs => .vector xs :: partsSeq xs
  | .set xs => .set xs :: partsSeq xs
  | .table es => .table es :: partsEntries es
  | v => [v]
def partsSeq : List Value → List Value
  | [] => []
  | x :: xs => parts x ++ partsSeq xs
def partsEntries : List (Value × Value) → List Value
  | [] => []
  | (k, v) :: es => parts k ++ parts v ++ partsEntries es
end

mutual
/-- Rewrite every timestamp in a value. -/
def mapTimes (f : OffsetDateTime → OffsetDateTime) : Value → Value
  | .timestamp t => .timestamp (f t)
  | .vector xs => .vector (mapTimesSeq f xs)
  | .set xs => .set (mapTimesSeq f xs)
  | .table es => .table (mapTimesEntries f es)
  | v => v
def mapTimesSeq (f : OffsetDateTime → OffsetDateTime) : List Value → List Value
  | [] => []
  | x :: xs => mapTimes f x :: mapTimesSeq f xs
def mapTimesEntries (f : OffsetDateTime → OffsetDateTime) : List (Value × Value) → List (Value × Value)
  | [] => []
  | (k, v) :: es => (mapTimes f k, mapTimes f v) :: mapTimesEntries f es
end

/-- The same value with its timestamps read at `o`. -/
def atOffset (o : UtcOffset) : Value → Value := mapTimes fun t => (t.checkedToOffset o).getD t

/-- What a B-tree guarantees of its own iteration order. -/
def NodeOrdered : Value → Prop
  | .set xs => Ascending cmp xs
  | .table es => Ascending (byKey cmp) es
  | _ => True

instance : (v : Value) → Decidable v.NodeOrdered
  | .set xs => inferInstanceAs (Decidable (List.Pairwise _ xs))
  | .table es => inferInstanceAs (Decidable (List.Pairwise _ es))
  | .none | .boolean _ | .count _ | .integer _ | .real _ | .timespan _ | .timestamp _ | .string _
  | .enumValue _ | .address _ | .subnet _ | .port _ | .vector _ => isTrue trivial

/-- Every set and table inside the value is one that a B-tree can hold. -/
def Canonical (v : Value) : Prop := ∀ w ∈ v.parts, w.NodeOrdered

instance (v : Value) : Decidable v.Canonical := inferInstanceAs (Decidable (∀ w ∈ v.parts, _))

def RealsFinite (v : Value) : Prop := ∀ x, .real x ∈ v.parts → x.isFinite

/-- Every timestamp has a date of its own at `o`. -/
def TimesFit (o : UtcOffset) (v : Value) : Prop :=
  ∀ t, .timestamp t ∈ v.parts → (t.checkedToOffset o).isSome

@[elab_as_elim]
theorem induct {P : Value → Prop} (leaf : ∀ v, v.discriminant < 12 → P v)
    (vector : ∀ xs, (∀ x ∈ xs, P x) → P (.vector xs))
    (set : ∀ xs, (∀ x ∈ xs, P x) → P (.set xs))
    (table : ∀ es, (∀ e ∈ es, P e.1 ∧ P e.2) → P (.table es)) (v : Value) : P v :=
  @Value.rec P (fun xs => ∀ x ∈ xs, P x) (fun es => ∀ e ∈ es, P e.1 ∧ P e.2)
    (fun e => P e.1 ∧ P e.2)
    (leaf _ (by simp [discriminant])) (fun _ => leaf _ (by simp [discriminant]))
    (fun _ => leaf _ (by simp [discriminant])) (fun _ => leaf _ (by simp [discriminant]))
    (fun _ => leaf _ (by simp [discriminant])) (fun _ => leaf _ (by simp [discriminant]))
    (fun _ => leaf _ (by simp [discriminant])) (fun _ => leaf _ (by simp [discriminant]))
    (fun _ => leaf _ (by simp [discriminant])) (fun _ => leaf _ (by simp [discriminant]))
    (fun _ => leaf _ (by simp [discriminant])) (fun _ => leaf _ (by simp [discriminant]))
    vector set table (by simp) (fun _ _ h hs => List.forall_mem_cons.mpr ⟨h, hs⟩) (by simp)
    (fun _ _ h hs => List.forall_mem_cons.mpr ⟨h, hs⟩) (fun _ _ hk hv => ⟨hk, hv⟩) v

end Value

end ZWS
