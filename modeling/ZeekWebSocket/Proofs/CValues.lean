import ZeekWebSocket.Proofs.NodePipeline
import ZeekWebSocket.Spec.CValue

/-! What a C program can do with values: which it can make, and which it can rebuild when they are
lent to it, without what only an owner can open. A table finds what was last put under an equal key. -/

namespace ZWS.C

open Base

/-! Addresses, on a machine of either byte order. -/

section
variable (e : Endian)

theorem addressNewV4_toBe (addr : BitVec 32) : addressNewV4 e ⟨e.toBe addr⟩ = .v4 addr := by
  have hlt : addr.toNat < 256 ^ 4 := addr.isLt
  have hback : ofBytesLE (bytesLE 4 addr.toNat) = addr.toNat := ofBytesLE_bytesLE hlt
  cases e with
  | little =>
    have hswap : ofBytesLE (bytesLE 4 addr.toNat).reverse < 2 ^ 32 := by
      simpa using ofBytesLE_lt (bytesLE 4 addr.toNat).reverse
    have hbytes := bytesLE_ofBytesLE (bytesLE 4 addr.toNat).reverse
    rw [List.length_reverse, length_bytesLE] at hbytes
    simp only [addressNewV4, Endian.toNeBytes, Endian.toBe, swapBytes, BitVec.toNat_ofNat,
      Nat.mod_eq_of_lt hswap, hbytes, List.reverse_reverse, hback, BitVec.ofNat_toNat, BitVec.setWidth_eq]
  | big =>
    simp only [addressNewV4, Endian.toNeBytes, Endian.toBe, List.reverse_reverse, hback,
      BitVec.ofNat_toNat, BitVec.setWidth_eq]

theorem addressNewV6_reverse (addr : BitVec 128) :
    addressNewV6 ⟨(bytesLE 16 addr.toNat).reverse, by simp⟩ = .v6 addr := by
  have hback : ofBytesLE (bytesLE 16 addr.toNat) = addr.toNat := ofBytesLE_bytesLE addr.isLt
  simp only [addressNewV6, List.reverse_reverse, hback, BitVec.ofNat_toNat, BitVec.setWidth_eq]

/-- An address read and made again. -/
def copyAddress (addr : IpAddr) : Option IpAddr :=
  if addressIsV6 addr then (addressAsV6 addr).map addressNewV6
  else (addressAsV4 e addr).map (addressNewV4 e)

theorem copyAddress_eq (addr : IpAddr) : copyAddress e addr = some addr := by
  cases addr with
  | v4 addr => simp [copyAddress, addressIsV6, addressAsV4, addressNewV4_toBe]
  | v6 addr => simp [copyAddress, addressIsV6, addressAsV6, addressNewV6_reverse]

end

/-- An address that a program can make. -/
inductive MadeAddress (e : Endian) : IpAddr → Prop
  | v4 (data : InAddr) : MadeAddress e (addressNewV4 e data)
  | v6 (data : In6Addr) : MadeAddress e (addressNewV6 data)

/-- A value that a program can make. -/
inductive Made (e : Endian) : Value → Prop
  | none : Made e valueNewNone
  | boolean (data : Bool) : Made e (valueNewBoolean data)
  | count (data : UInt64) : Made e (valueNewCount data)
  | integer (data : Int64) : Made e (valueNewInteger data)
  | real (data : F64) : Made e (valueNewReal data)
  | timespan (nanos : Int64) : Made e (valueNewTimespan nanos)
  | timestamp {nanos : Int64} {v : Value} (h : valueNewTimestamp nanos = some v) : Made e v
  | string {data : ByteArray} {v : Value} (h : valueNewString data = some v) : Made e v
  | enum {data : ByteArray} {v : Value} (h : valueNewEnum data = some v) : Made e v
  | address {addr : IpAddr} (ha : MadeAddress e addr) : Made e (valueNewAddress addr)
  | subnet {addr : IpAddr} {prefixLen : UInt8} {v : Value} (ha : MadeAddress e addr)
      (h : valueNewSubnet addr prefixLen = some v) : Made e v
  | port (port : Port) : Made e (valueNewPort port)
  | vector {values : List Value} (h : ∀ x ∈ values, Made e x) : Made e (valueNewVector values)
  | set {values : List Value} (h : ∀ x ∈ values, Made e x) : Made e (valueNewSet values)
  | table {values : List TableEntry} (hk : ∀ x ∈ values, Made e x.key)
      (hv : ∀ x ∈ values, Made e x.value) : Made e (valueNewTable values)

/-- What can be read of a value by one to whom it is lent. The nanoseconds of the API are `i64`, and
only the owner of a vector, set or table gets at what is in it. -/
def Readable : Value → Prop
  | .timespan d => FitsI64 d.wholeNanoseconds
  | .timestamp t => FitsI64 t.unixNanos
  | .vector _ | .set _ | .table _ => False
  | _ => True

instance : DecidablePred Readable
  | .timespan d => inferInstanceAs (Decidable (FitsI64 d.wholeNanoseconds))
  | .timestamp t => inferInstanceAs (Decidable (FitsI64 t.unixNanos))
  | .vector _ | .set _ | .table _ => isFalse not_false
  | .none | .boolean _ | .count _ | .integer _ | .real _ | .string _ | .enumValue _ | .address _
  | .subnet _ | .port _ => isTrue trivial

/-- A list rebuilt entry by entry. -/
def copyList (f : Value → Option Value) (values : List Value) : Option (List Value) :=
  (List.range (listSize values)).mapM fun n => (listEntry values n).bind f

/-- A program that rebuilds a value that it is lent. -/
def copy (e : Endian) (v : Value) : Option Value :=
  match valueType v with
  | .none => some valueNewNone
  | .boolean => (valueAsBool v).map valueNewBoolean
  | .count => (valueAsCount v).map valueNewCount
  | .integer => (valueAsInteger v).map valueNewInteger
  | .real => (valueAsReal v).map valueNewReal
  | .timespan => (valueAsTimespan v).map valueNewTimespan
  | .timestamp => (valueAsTimestamp v).bind valueNewTimestamp
  | .string => valueNewString (valueAsString v)
  | .enumValue => valueNewEnum (valueAsEnumvalue v)
  | .address => do
    let addr ← valueAsAddress v
    let addr ← copyAddress e addr
    some (valueNewAddress addr)
  | .subnet => do
    let subnet ← valueAsSubnet v
    let addr ← copyAddress e subnet.addr
    valueNewSubnet addr subnet.prefixLen
  | .port => (valueAsPort v).map valueNewPort
  -- `zws_value_as_vector` and the like consume the value
  | .vector | .set | .table => none

theorem copyList_eq {f : Value → Option Value} (xs : List Value) : copyList f xs = xs.mapM f := by
  induction xs with
  | nil => rfl
  | cons x xs ih =>
    have hrest : ((List.range xs.length).map Nat.succ).mapM (fun n => (listEntry (x :: xs) n).bind f) =
        copyList f xs := List.mapM_map
    rw [copyList, listSize, List.length_cons, List.range_succ_eq_map, List.mapM_cons, List.mapM_cons,
      hrest, ih]
    rfl

theorem mapM_guarded {α β : Type} {f : α → Option β} {p : α → Prop} [DecidablePred p] {g : α → β}
    {xs : List α} (h : ∀ x ∈ xs, f x = if p x then some (g x) else none) :
    xs.mapM f = if ∀ x ∈ xs, p x then some (xs.map g) else none := by
  induction xs with
  | nil => simp
  | cons x xs ih =>
    obtain ⟨hx, hxs⟩ := List.forall_mem_cons.mp h
    rw [List.mapM_cons, hx, ih hxs]
    by_cases hp : p x
    · rcases em (∀ x ∈ xs, p x) with hps | hps
      · rw [if_pos hp, if_pos hps, if_pos (List.forall_mem_cons.mpr ⟨hp, hps⟩)]
        rfl
      · rw [if_pos hp, if_neg hps, if_neg fun hall => hps (List.forall_mem_cons.mp hall).2]
        rfl
    · rw [if_neg hp, if_neg fun hall => hp (List.forall_mem_cons.mp hall).1]
      rfl

theorem ofNanoseconds_wholeNanoseconds {d : Duration} (h : FitsI64 d.wholeNanoseconds) :
    Duration.ofNanoseconds (.ofInt d.wholeNanoseconds) = d := by
  refine Duration.ext_of_wholeNanoseconds ?_
  rw [Duration.ofNanoseconds, Duration.wholeNanoseconds_ofFraction, h.toInt_ofInt, mul_one]

theorem valueNewSubnet_ip (n : IpNetwork) : valueNewSubnet n.ip n.prefixLen = some (.subnet n) := by
  rw [valueNewSubnet, IpNetwork.new_ip_prefixLen]
  rfl

/-- A value is rebuilt with its timestamps in UTC, if it can be read. -/
theorem copy_eq (e : Endian) (v : Value) :
    copy e v = if Readable v then some (v.mapTimes OffsetDateTime.utc) else none := by
  cases v with
  | timespan d =>
    by_cases hfits : FitsI64 d.wholeNanoseconds
    · rw [if_pos (show Readable (.timespan d) from hfits)]
      simp [copy, valueType, valueAsTimespan, tryI64, hfits, valueNewTimespan,
        ofNanoseconds_wholeNanoseconds hfits, Value.mapTimes]
    · rw [if_neg (show ¬ Readable (.timespan d) from hfits)]
      simp [copy, valueType, valueAsTimespan, tryI64, hfits]
  | timestamp t =>
    by_cases hfits : FitsI64 t.unixNanos
    · rw [if_pos (show Readable (.timestamp t) from hfits)]
      simp [copy, valueType, valueAsTimestamp, tryI64, hfits, valueNewTimestamp, hfits.toInt_ofInt,
        OffsetDateTime.ofUnixNanos_unixNanos hfits, Value.mapTimes]
    · rw [if_neg (show ¬ Readable (.timestamp t) from hfits)]
      simp [copy, valueType, valueAsTimestamp, tryI64, hfits]
  | string s =>
    rw [if_pos (show Readable (.string s) from trivial), copy]
    simp only [valueType, valueNewString, valueAsString, fromUTF8?_toUTF8, Value.mapTimes, Option.map_some]
  | enumValue s =>
    rw [if_pos (show Readable (.enumValue s) from trivial), copy]
    simp only [valueType, valueNewEnum, valueAsEnumvalue, fromUTF8?_toUTF8, Value.mapTimes, Option.map_some]
  | address a =>
    simp [copy, valueType, valueAsAddress, copyAddress_eq, valueNewAddress, Readable, Value.mapTimes]
  | subnet n =>
    simp [copy, valueType, valueAsSubnet, copyAddress_eq, valueNewSubnet_ip, Readable, Value.mapTimes]
  | port p =>
    obtain ⟨number, protocol⟩ := p
    cases protocol <;> rfl
  | _ => rfl

theorem copyList_copy (e : Endian) (xs : List Value) : copyList (copy e) xs =
    if ∀ x ∈ xs, Readable x then some (xs.map (Value.mapTimes OffsetDateTime.utc)) else none := by
  rw [copyList_eq, mapM_guarded fun x _ => copy_eq e x]

theorem madeAddress (e : Endian) (addr : IpAddr) : MadeAddress e addr := by
  cases addr with
  | v4 addr => exact addressNewV4_toBe e addr ▸ .v4 _
  | v6 addr => exact addressNewV6_reverse addr ▸ .v6 _

/-- What a part of a value is that a program has made. -/
def Makeable : Value → Prop
  | .timespan d => FitsI64 d.wholeNanoseconds
  | .timestamp t => FitsI64 t.unixNanos ∧ t.offset.seconds = 0
  | .set xs => Ascending Value.cmp xs
  | .table es => Ascending (byKey Value.cmp) es
  | _ => True

theorem makeable_of_made {e : Endian} {v : Value} (h : Made e v) : ∀ w ∈ v.parts, Makeable w := by
  induction h with
  | timespan nanos =>
    have hnanos : (Duration.ofNanoseconds nanos).wholeNanoseconds = nanos.toInt := by
      rw [Duration.ofNanoseconds, Duration.wholeNanoseconds_ofFraction, mul_one]
    rw [valueNewTimespan, Value.parts_leaf (by simp [Value.discriminant]), List.forall_mem_singleton,
      Makeable, hnanos]
    exact fitsI64_toInt nanos
  | @timestamp nanos v h =>
    obtain ⟨t, ht, rfl⟩ := Option.map_eq_some_iff.mp h
    have hfits := fitsI64_toInt nanos
    unfold OffsetDateTime.ofUnixNanos at ht
    split at ht
    · obtain rfl := Option.some.inj ht
      simpa [Value.parts, Makeable, OffsetDateTime.unixNanos] using hfits
    · exact absurd ht (by simp)
  | string h =>
    obtain ⟨s, -, rfl⟩ := Option.map_eq_some_iff.mp h
    simp [Value.parts, Makeable]
  | enum h =>
    obtain ⟨s, -, rfl⟩ := Option.map_eq_some_iff.mp h
    simp [Value.parts, Makeable]
  | subnet _ h =>
    obtain ⟨n, -, rfl⟩ := Option.map_eq_some_iff.mp h
    simp [Value.parts, Makeable]
  | vector _ ih => exact Value.forall_parts_vector.mpr ⟨trivial, ih⟩
  | @set values _ ih =>
    refine Value.forall_parts_set.mpr ⟨collectBy_ascending keepNew_picks values, fun x hx => ih x ?_⟩
    exact mem_collectBy keepNew_picks hx
  | @table values _ _ ihk ihv =>
    refine Value.forall_parts_table.mpr ⟨collectBy_ascending keepNew_picks _, fun entry hentry => ?_⟩
    obtain ⟨x, hx, rfl⟩ := List.mem_map.mp (mem_collectBy keepNew_picks hentry)
    exact ⟨ihk x hx, ihv x hx⟩
  | _ => simp [Value.parts, Makeable, valueNewNone, valueNewBoolean, valueNewCount, valueNewInteger,
      valueNewReal, valueNewAddress, valueNewPort]

theorem made_leaf (e : Endian) {v : Value} (hv : v.discriminant < 12) (h : Makeable v) : Made e v := by
  cases v with
  | none => exact .none
  | boolean b => exact .boolean b
  | count n => exact .count n
  | integer n => exact .integer n
  | real x => exact .real x
  | timespan d => exact ofNanoseconds_wholeNanoseconds h ▸ .timespan _
  | timestamp t =>
    obtain ⟨hfits, hoff⟩ := h
    have hutc : t.utc = t := by
      obtain ⟨⟨nanos, range⟩, ⟨seconds, _⟩⟩ := t
      obtain rfl : seconds = 0 := hoff
      simp [OffsetDateTime.utc, OffsetDateTime.ofUnixNanos, OffsetDateTime.unixNanos, range]
    have hmade : valueNewTimestamp (.ofInt t.unixNanos) = some (.timestamp t) := by
      rw [valueNewTimestamp, hfits.toInt_ofInt, OffsetDateTime.ofUnixNanos_unixNanos hfits, hutc]
      rfl
    exact .timestamp hmade
  | string s =>
    have hmade : valueNewString s.toUTF8 = some (.string s) := by rw [valueNewString, fromUTF8?_toUTF8]; rfl
    exact .string hmade
  | enumValue s =>
    have hmade : valueNewEnum s.toUTF8 = some (.enumValue s) := by rw [valueNewEnum, fromUTF8?_toUTF8]; rfl
    exact .enum hmade
  | address a => exact .address (madeAddress e a)
  | subnet n => exact .subnet (madeAddress e n.ip) (valueNewSubnet_ip n)
  | port p =>
    obtain ⟨number, protocol⟩ := p
    have hport := Made.port (e := e) ⟨number, .ofZeek protocol⟩
    cases protocol <;> exact hport
  | vector xs => simp [Value.discriminant] at hv
  | set xs => simp [Value.discriminant] at hv
  | table es => simp [Value.discriminant] at hv

/-- A program makes the values whose sets and tables a B-tree can hold, whose times fit, and whose
timestamps are in UTC. -/
theorem made_iff (e : Endian) (v : Value) : Made e v ↔ ∀ w ∈ v.parts, Makeable w := by
  refine ⟨makeable_of_made, ?_⟩
  intro h
  induction v using Value.induct with
  | leaf v hv => exact made_leaf e hv (by rwa [Value.parts_leaf hv, List.forall_mem_singleton] at h)
  | vector xs ih =>
    obtain ⟨-, hxs⟩ := Value.forall_parts_vector.mp h
    exact .vector fun x hx => ih x hx (hxs x hx)
  | set xs ih =>
    obtain ⟨hasc, hxs⟩ := Value.forall_parts_set.mp h
    have hset : Made e (valueNewSet xs) := .set fun x hx => ih x hx (hxs x hx)
    rwa [valueNewSet, collectBy_of_ascending hasc] at hset
  | table es ih =>
    obtain ⟨hasc, hes⟩ := Value.forall_parts_table.mp h
    have htable : Made e (valueNewTable (es.map fun x => ⟨x.1, x.2⟩)) := by
      refine .table (List.forall_mem_map.mpr fun x hx => ?_) (List.forall_mem_map.mpr fun x hx => ?_)
      · exact (ih x hx).1 (hes x hx).1
      · exact (ih x hx).2 (hes x hx).2
    have hback : (es.map fun x => (⟨x.1, x.2⟩ : TableEntry)).map (fun x => (x.key, x.value)) = es :=
      (List.map_map ..).trans (List.map_id es)
    rwa [valueNewTable, hback, collectBy_of_ascending hasc] at htable

theorem made_mapTimes (e : Endian) {v : Value} (h : Readable v) : Made e (v.mapTimes OffsetDateTime.utc) := by
  cases v with
  | timespan d => exact made_leaf e (by simp [Value.mapTimes, Value.discriminant]) h
  | timestamp t =>
    have hmade : valueNewTimestamp (.ofInt t.unixNanos) = some (.timestamp t.utc) := by
      rw [valueNewTimestamp, FitsI64.toInt_ofInt h, OffsetDateTime.ofUnixNanos_unixNanos h]
      rfl
    exact .timestamp hmade
  | vector xs => exact h.elim
  | set xs => exact h.elim
  | table es => exact h.elim
  | _ => exact made_leaf e (by simp [Value.mapTimes, Value.discriminant]) trivial

/-- A program that rebuilds the event its callback is given, under a name of its own memory. What
`zws_event_name` points to has no end that it could know. -/
def copyEvent (e : Endian) {m : Memory} (name : CStr m) (event : Event) : Option Event := do
  let args ← copyList (copy e) (eventArgs event)
  let metadata ← copyList (copy e) (eventMetadata event)
  eventNew name args (some metadata)

theorem copyEvent_eq_some {e : Endian} {m : Memory} {name : CStr m} {event event' : Event} :
    copyEvent e name event = some event' ↔ (∀ v ∈ event.args ++ event.metadata, Readable v) ∧
      ∃ text, name.text = some text ∧
        event' = Node.mapTimes OffsetDateTime.utc { event with name := text } := by
  rw [copyEvent, eventArgs, eventMetadata, copyList_copy, copyList_copy, List.forall_mem_append]
  by_cases ha : ∀ v ∈ event.args, Readable v
  · by_cases hm : ∀ v ∈ event.metadata, Readable v
    · rw [if_pos ha, if_pos hm, and_iff_right ⟨ha, hm⟩]
      have hnew : eventNew name (event.args.map (Value.mapTimes OffsetDateTime.utc))
          (some (event.metadata.map (Value.mapTimes OffsetDateTime.utc))) =
            name.text.map fun text => Node.mapTimes OffsetDateTime.utc { event with name := text } := rfl
      simp only [Option.bind_eq_bind, Option.bind_some, hnew, Option.map_eq_some_iff]
      exact exists_congr fun text => and_congr_right fun _ => eq_comm
    · simp [hm]
  · simp [ha]

/-- Of a vector or set that it has made a program reads what it has put in, of a set in order and
without repetitions. -/
theorem elements_kept (values : List Value) :
    valueAsVector (valueNewVector values) = some values ∧
    ∃ xs, valueAsSet (valueNewSet values) = some xs ∧ Ascending Value.cmp xs ∧
      (∀ x ∈ xs, x ∈ values) ∧ ∀ v ∈ values, ∃ x ∈ xs, v.Equal x := by
  refine ⟨rfl, _, rfl, collectBy_ascending keepNew_picks values, ?_, ?_⟩
  · exact fun x hx => mem_collectBy keepNew_picks hx
  · exact fun v hv => exists_mem_collectBy keepNew_picks hv

/-- What a program finds in a table that it has made. -/
structure Looks (values : List TableEntry) (table : List (Value × Value)) : Prop where
  /-- the value that was put last under an equal key -/
  get : ∀ key, tableGet table key = (values.reverse.find? fun x => decide (x.key.Equal key)).map (·.value)
  /-- no two keys are equal -/
  keys : Ascending Value.cmp (tableKeys table)
  /-- each key finds a value, and other values find none -/
  found : ∀ key, (tableGet table key).isSome ↔ ∃ k ∈ tableKeys table, k.Equal key

theorem table_looks (values : List TableEntry) :
    ∃ table, valueAsTable (valueNewTable values) = some table ∧ Looks values table := by
  refine ⟨_, rfl, ?_, ?_, ?_⟩
  · intro key
    have hsame : ∀ a b : Value × Value, decide (a.1.Equal key) = true →
        (decide (b.1.Equal key) = true ↔ byKey Value.cmp a b = .eq) := by
      simp only [decide_eq_true_eq]
      exact fun a b ha => ⟨fun hb => ha.trans hb.symm, fun hab => (Value.Equal.symm hab).trans ha⟩
    rw [tableGet, find?_collectBy_keepNew hsame, ← List.map_reverse, List.find?_map, Option.map_map]
    rfl
  · have hasc : Ascending (byKey Value.cmp)
        (collectBy (byKey Value.cmp) keepNew (values.map fun x => (x.key, x.value))) :=
      collectBy_ascending keepNew_picks _
    exact List.pairwise_map.mpr hasc
  · intro key
    simp [tableGet, tableKeys]

end ZWS.C
