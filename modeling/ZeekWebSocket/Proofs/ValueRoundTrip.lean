import ZeekWebSocket.Sanity.Format
import ZeekWebSocket.Sanity.Sample
import ZeekWebSocket.Sanity.Writer

/-! Values survive the wire. Everything that the writer can write is read back as an equal
value with its timestamps at the local offset, and what it cannot write is known exactly. -/

namespace ZWS

open Base

theorem Protocol.fromStr_toStr (p : Protocol) : Protocol.fromStr p.toStr = .ok p := by
  cases p <;> rfl

theorem slash_notMem_repr (n : ℕ) : '/' ∉ (n : ℤ).repr.toList := by
  rw [toList_repr_nonneg (by omega)]
  intro h
  exact absurd (isDigit_toDigits _ _ h) (by decide)

theorem Port.fromStr_toStr (p : Port) : Port.fromStr p.toStr = .ok p := by
  have hsplit : splitOnce '/' p.toStr.toList =
      some ((p.number.toNat : ℤ).repr.toList, p.protocol.toStr.toList) := by
    rw [Port.toStr, String.toList_append, String.toList_append, List.append_assoc]
    exact splitOnce_append (slash_notMem_repr p.number.toNat)
  rw [Port.fromStr, hsplit]
  simp only [parseU16_repr, String.ofList_toList, Protocol.fromStr_toStr, Except.map]

namespace Value

theorem decodeLeaf_ofInt64 (P : Platform) (n : Int64) :
    decodeLeaf P .integer (.num (Number.ofInt64 n)) = .ok (.integer n) := by
  unfold Number.ofInt64
  split
  · rfl
  · next h =>
    have hlt := n.toInt_lt
    have hn : (UInt64.ofNat n.toInt.toNat).toNat = n.toInt.toNat := by
      rw [UInt64.toNat_ofNat']
      exact Nat.mod_eq_of_lt (by omega)
    simp only [decodeLeaf, hn]
    rw [if_pos (by omega), Int.toNat_of_nonneg (by omega), Int64.ofInt_toInt]

theorem decode_tagged (P : Platform) (buf : Bool) (t : Tag) (c : Json) :
    decode P buf (tagged t c) = decodeContent P buf t c := by
  have ht : readTag buf (.str t.name) = .ok t := Tag.fromStr_name t
  rw [tagged, decode, visitMap, if_pos rfl, ht, Outcome.ok_bind, visitAfterTag,
    if_neg contentKey_ne_tagKey, if_pos rfl]
  cases decodeContent P buf t c <;> rfl

theorem decodeEntry_object (P : Platform) (buf : Bool) (j j' : Json) :
    decodeEntry P buf (.obj [("key", j), ("value", j')]) =
      decode P buf j >>= fun k => decode P buf j' >>= fun v => .ok (k, v) := by
  rw [decodeEntry, visitEntry, if_pos rfl]
  rfl

/-- What a part of a value needs to be written and to be found again at offset `o`. -/
def Ready (o : UtcOffset) : Value → Prop
  | .real x => x.isFinite
  | .timespan d => Timespan.Representable d
  | .timestamp t => (t.checkedToOffset o).isSome
  | .set xs => Ascending cmp xs
  | .table es => Ascending (byKey cmp) es
  | _ => True

section
variable {P : Platform} {o : UtcOffset}

theorem timestamp_round_trip (hP : P.RoundTrips) (ho : P.localOffset = some o) {t t' : OffsetDateTime}
    (h : t.checkedToOffset o = some t') :
    ∃ s, Timestamp.serialize P t = .ok s ∧ Timestamp.deserialize P s = .ok t' := by
  obtain ⟨s, hs, hs'⟩ := hP.dateTime t'.localTime
  have hoff : t'.offset = o := (OffsetDateTime.unixNanos_of_checkedToOffset h).2
  refine ⟨s, ?_, ?_⟩
  · simp [Timestamp.serialize, ho, Outcome.ofOption, OffsetDateTime.toOffset, h, Outcome.expect, hs]
  · simp [Timestamp.deserialize, hs', ho, Outcome.ofOption, PrimitiveDateTime.assumeOffset, ← hoff]

theorem leaf_round_trip (hP : P.RoundTrips) (ho : P.localOffset = some o) {v : Value}
    (hv : v.discriminant < 12) (h : Ready o v) :
    ∃ c, encodeContent P v = .ok c ∧ decodeLeaf P v.tag c = .ok (v.atOffset o) := by
  cases v with
  | integer n => exact ⟨_, rfl, decodeLeaf_ofInt64 P n⟩
  | real x =>
    have hx : x.isFinite := h
    refine ⟨.num (.float x hx), ?_, rfl⟩
    rw [encodeContent, dif_pos hx]
  | timespan d =>
    obtain ⟨s, hs, hs'⟩ := Timespan.deserialize_serialize h
    refine ⟨.str s, ?_, ?_⟩
    · simp [encodeContent, hs, Outcome.ofExcept]
    · simp [tag, decodeLeaf, hs', atOffset, mapTimes]
  | timestamp t =>
    obtain ⟨t', ht'⟩ := Option.isSome_iff_exists.mp h
    obtain ⟨s, hs, hs'⟩ := timestamp_round_trip hP ho ht'
    refine ⟨.str s, ?_, ?_⟩
    · simp [encodeContent, hs]
    · simp [tag, decodeLeaf, hs', atOffset, mapTimes, ht']
  | address a =>
    refine ⟨_, rfl, ?_⟩
    simp [tag, decodeLeaf, hP.addr, Outcome.ofOption, atOffset, mapTimes]
  | subnet n =>
    refine ⟨_, rfl, ?_⟩
    simp [tag, decodeLeaf, hP.network, Outcome.ofOption, atOffset, mapTimes]
  | port p =>
    refine ⟨_, rfl, ?_⟩
    simp [tag, decodeLeaf, Port.fromStr_toStr, Outcome.ofExcept, Outcome.mapErr, atOffset, mapTimes]
  | vector xs => simp [discriminant] at hv
  | set xs => simp [discriminant] at hv
  | table es => simp [discriminant] at hv
  | _ => exact ⟨_, rfl, rfl⟩

theorem atOffset_vector (xs : List Value) :
    (vector xs).atOffset o = .vector (xs.map (atOffset o)) := by
  rw [atOffset, mapTimes, mapTimesSeq_eq]

theorem atOffset_set (xs : List Value) : (set xs).atOffset o = .set (xs.map (atOffset o)) := by
  rw [atOffset, mapTimes, mapTimesSeq_eq]

theorem atOffset_table (es : List (Value × Value)) :
    (table es).atOffset o = .table (es.map fun e => (e.1.atOffset o, e.2.atOffset o)) := by
  rw [atOffset, mapTimes, mapTimesEntries_eq]

/-- From the content of a value to the whole of it. -/
theorem encode_of_content {v w : Value}
    (h : ∃ c, encodeContent P v = .ok c ∧ ∀ buf, decodeContent P buf v.tag c = .ok w) :
    ∃ j, encode P v = .ok j ∧ ∀ buf, decode P buf j = .ok w := by
  obtain ⟨c, hc, hw⟩ := h
  refine ⟨tagged v.tag c, ?_, fun buf => ?_⟩
  · simp [encode, hc]
  · rw [decode_tagged, hw]

theorem entry_round_trip {e e' : Value × Value}
    (hk : ∃ j, encode P e.1 = .ok j ∧ ∀ buf, decode P buf j = .ok e'.1)
    (hv : ∃ j, encode P e.2 = .ok j ∧ ∀ buf, decode P buf j = .ok e'.2) :
    ∃ j, encodeEntry P e = .ok j ∧ ∀ buf, decodeEntry P buf j = .ok e' := by
  obtain ⟨jk, hk, hk'⟩ := hk
  obtain ⟨jv, hv, hv'⟩ := hv
  refine ⟨.obj [("key", jk), ("value", jv)], ?_, fun buf => ?_⟩
  · simp [encodeEntry, hk, hv]
  · simp [decodeEntry_object, hk', hv']

/-- Nothing in a tree of sets and tables is merged, dropped or moved on the way. -/
theorem content_round_trip (hP : P.RoundTrips) (ho : P.localOffset = some o) (v : Value)
    (h : ∀ w ∈ v.parts, Ready o w) :
    ∃ c, encodeContent P v = .ok c ∧ ∀ buf, decodeContent P buf v.tag c = .ok (v.atOffset o) := by
  induction v using induct with
  | leaf v hv =>
    rw [parts_leaf hv, List.forall_mem_singleton] at h
    obtain ⟨c, hc, hd⟩ := leaf_round_trip hP ho hv h
    exact ⟨c, hc, fun buf => decodeContent_of_leaf hd⟩
  | vector xs ih =>
    obtain ⟨-, hxs⟩ := forall_parts_vector.mp h
    obtain ⟨js, hjs, hvs⟩ := Outcome.mapM_round_trip fun x hx => encode_of_content (ih x hx (hxs x hx))
    refine ⟨.arr js, by rw [encodeContent_vector, hjs]; rfl, fun buf => ?_⟩
    rw [tag, decodeContent_vector, hvs buf, atOffset_vector]
    rfl
  | set xs ih =>
    obtain ⟨hasc, hxs⟩ := forall_parts_set.mp h
    obtain ⟨js, hjs, hvs⟩ := Outcome.mapM_round_trip fun x hx => encode_of_content (ih x hx (hxs x hx))
    refine ⟨.arr js, by rw [encodeContent_set, hjs]; rfl, fun buf => ?_⟩
    rw [tag, decodeContent_set, hvs buf, atOffset_set, Outcome.ok_bind,
      collectBy_of_ascending (ascending_atOffset hasc)]
  | table es ih =>
    obtain ⟨hasc, hes⟩ := forall_parts_table.mp h
    obtain ⟨js, hjs, hvs⟩ := Outcome.mapM_round_trip (h := fun e => (e.1.atOffset o, e.2.atOffset o))
      fun e he => entry_round_trip (encode_of_content ((ih e he).1 (hes e he).1))
        (encode_of_content ((ih e he).2 (hes e he).2))
    refine ⟨.arr js, by rw [encodeContent_table, hjs]; rfl, fun buf => ?_⟩
    rw [tag, decodeContent_table, hvs buf, atOffset_table, Outcome.ok_bind,
      collectBy_of_ascending (ascending_atOffset_entries hasc)]

theorem ready_of {v : Value} (hc : v.Canonical) (hr : v.RealsFinite) (ht : v.TimesFit o)
    (hd : ∀ d, .timespan d ∈ v.parts → Timespan.Representable d) : ∀ w ∈ v.parts, Ready o w := by
  intro w hw
  cases w with
  | real x => exact hr x hw
  | timespan d => exact hd d hw
  | timestamp t => exact ht t hw
  | set xs => exact hc _ hw
  | table es => exact hc _ hw
  | _ => trivial

/-- No timestamp that fits the local offset makes the writer panic. -/
theorem encode_ne_panic_of_timesFit (hP : P.RoundTrips) (ho : P.localOffset = some o) {v : Value}
    (ht : v.TimesFit o) : encode P v ≠ .panic := by
  refine encode_ne_panic (encodeContent_ne_panic ?_)
  rintro w hw t rfl
  obtain ⟨t', ht'⟩ := Option.isSome_iff_exists.mp (ht t hw)
  obtain ⟨s, hs, -⟩ := timestamp_round_trip hP ho ht'
  simp [hs]

theorem decode_encode (hP : P.RoundTrips) (ho : P.localOffset = some o) {v : Value}
    (h : ∀ w ∈ v.parts, Ready o w) :
    ∃ j, encode P v = .ok j ∧ ∀ buf, decode P buf j = .ok (v.atOffset o) :=
  encode_of_content (content_round_trip hP ho v h)

end

/-- A timespan without a text, as the writer tests for it. -/
theorem not_representable_iff {d : Duration} :
    ¬ Timespan.Representable d ↔ d.subsecNanoseconds ≠ 0 ∧ ¬ FitsI64 d.wholeNanoseconds := not_or

/-- Writing a value fails exactly for a timespan below the second and beyond `i64` nanoseconds.
Otherwise the JSON reads back as an equal value. -/
theorem value_round_trip (P : Platform) (hP : P.RoundTrips) (o : UtcOffset)
    (ho : P.localOffset = some o) (buf : Bool) (v : Value) (hc : v.Canonical) (hr : v.RealsFinite)
    (ht : v.TimesFit o) :
    ((∃ e, encode P v = .err e) ↔
      ∃ d, .timespan d ∈ v.parts ∧ d.subsecNanoseconds ≠ 0 ∧ ¬ FitsI64 d.wholeNanoseconds) ∧
    ((∀ e, encode P v ≠ .err e) →
      ∃ j v', encode P v = .ok j ∧ decode P buf j = .ok v' ∧ Equal v' v) := by
  have hready : (∀ d, .timespan d ∈ v.parts → Timespan.Representable d) →
      ∃ j, encode P v = .ok j ∧ ∀ buf, decode P buf j = .ok (v.atOffset o) := fun hd =>
    decode_encode hP ho (ready_of hc hr ht hd)
  have herr : (∃ e, encode P v = .err e) ↔
      ∃ d, .timespan d ∈ v.parts ∧ ¬ Timespan.Representable d := by
    refine ⟨?_, ?_⟩
    · intro hsome
      obtain ⟨e, he⟩ := hsome
      by_contra hne
      obtain ⟨j, hj, -⟩ := hready fun d hd => not_not.mp fun hnot => hne ⟨d, hd, hnot⟩
      simp [he] at hj
    · intro hsome
      obtain ⟨d, hd, hnot⟩ := hsome
      have hok : ¬ ∃ j, encode P v = .ok j := fun h => hnot (exists_encode_iff.mp h _ hd)
      cases hv : encode P v with
      | ok j => exact absurd ⟨j, hv⟩ hok
      | err e => exact ⟨e, rfl⟩
      | panic => exact absurd hv (encode_ne_panic_of_timesFit hP ho ht)
  refine ⟨herr.trans (exists_congr fun d => and_congr_right' not_representable_iff), fun hne => ?_⟩
  obtain ⟨j, hj, hd⟩ := hready fun d hd => not_not.mp fun hnot => by
    obtain ⟨e, he⟩ := herr.mpr ⟨d, hd, hnot⟩
    exact hne e he
  exact ⟨j, _, hj, hd buf, atOffset_equal o v⟩

/-- A table keyed by a set, over a negative timespan, the epoch and the loopback address. -/
def nestedTable : Value :=
  .table [(.set [.count 1, .vector [.port ⟨22, .tcp⟩]],
    .vector [.timespan ⟨-1, -500000000, by decide, by decide⟩,
      .timestamp ⟨Sample.epoch, Sample.utc⟩, .address Sample.loopback, .none])]

theorem nestedTable_canonical : nestedTable.Canonical := by decide

theorem nestedTable_realsFinite : nestedTable.RealsFinite := by
  intro x hx
  simp [nestedTable, parts, partsEntries, partsSeq] at hx

theorem nestedTable_timesFit : nestedTable.TimesFit Sample.utc := by
  intro t ht
  obtain rfl : t = ⟨Sample.epoch, Sample.utc⟩ := by
    simpa [nestedTable, parts, partsEntries, partsSeq] using ht
  decide

theorem nestedTable_round_trip :
    ∃ j v', encode Sample.utcPlatform nestedTable = .ok j ∧
      decode Sample.utcPlatform false j = .ok v' ∧ Equal v' nestedTable := by
  refine (value_round_trip Sample.utcPlatform Sample.utcPlatform_roundTrips Sample.utc rfl false
    nestedTable nestedTable_canonical nestedTable_realsFinite nestedTable_timesFit).2 fun e he => ?_
  have hok : ∃ j, encode Sample.utcPlatform nestedTable = .ok j := ⟨_, rfl⟩
  simp [he] at hok

end Value

end ZWS
