import ZeekWebSocket.Proofs.MessageRoundTrip
import ZeekWebSocket.Sanity.Node

/-! A message that goes through the Node bindings comes out as the same JSON. On the way its
timestamps are read at the local offset, turned into nanoseconds and come back in UTC, and its
sets and tables become arrays and are sorted again. -/

namespace ZWS

open Base

namespace OffsetDateTime

/-- The years that `i64` nanoseconds span exist on every clock. -/
theorem checkedToOffset_isSome {t : OffsetDateTime} (h : FitsI64 t.unixNanos) (o : UtcOffset) :
    (t.checkedToOffset o).isSome := by
  obtain ⟨h1, h2⟩ := h
  obtain ⟨h3, h4⟩ := o.range
  unfold checkedToOffset
  rw [dif_pos (by unfold minDateTime maxDateTime; omega)]
  rfl

/-- The same instant in UTC. -/
def utc (t : OffsetDateTime) : OffsetDateTime := (ofUnixNanos t.unixNanos).getD t

theorem ofUnixNanos_unixNanos {t : OffsetDateTime} (h : FitsI64 t.unixNanos) :
    ofUnixNanos t.unixNanos = some t.utc := by
  obtain ⟨h1, h2⟩ := h
  have hr : minDateTime ≤ t.unixNanos ∧ t.unixNanos ≤ maxDateTime := by
    unfold minDateTime maxDateTime
    omega
  simp [utc, ofUnixNanos, dif_pos hr]

theorem unixNanos_utc (t : OffsetDateTime) : t.utc.unixNanos = t.unixNanos := by
  unfold utc ofUnixNanos
  split
  · simp [unixNanos]
  · rfl

end OffsetDateTime

namespace Node

/-- What a part of a value needs to go through Node and back, at the local offset. -/
def Crosses (o : UtcOffset) : ZWS.Value → Prop
  | .timespan _ => False
  | .timestamp t => t.offset = o ∧ FitsI64 t.unixNanos
  | .set xs => Ascending ZWS.Value.cmp xs
  | .table es => Ascending (byKey ZWS.Value.cmp) es
  | _ => True

section
variable {P : Platform} {o : UtcOffset}

theorem Protocol.toZeek_ofZeek (p : ZWS.Protocol) : (Protocol.ofZeek p).toZeek = p := by
  cases p <;> rfl

theorem Value.leaf_round_trip (hP : P.RoundTrips) (ho : P.localOffset = some o) {v : ZWS.Value}
    (hv : v.discriminant < 12) (h : Crosses o v) :
    ∃ n, ofZeek P v = .ok n ∧ toZeek P n = .ok (v.mapTimes OffsetDateTime.utc) := by
  cases v with
  | count n => exact ⟨_, rfl, by simp [toZeek, BigInt.ofU64, BigInt.getU64, ZWS.Value.mapTimes]⟩
  | timespan d => exact h.elim
  | timestamp t =>
    obtain ⟨rfl, hfits⟩ := h
    refine ⟨.timestamp (.ofInt t.unixNanos), ?_, ?_⟩
    · have hnanos : (OffsetDateTime.newInOffset t.localTime t.offset).unixNanos = t.unixNanos := rfl
      simp [ofZeek, ho, Outcome.ofOption, hnanos, hfits]
    · simp [toZeek, hfits.toInt_ofInt, OffsetDateTime.ofUnixNanos_unixNanos hfits, Outcome.ofOption,
        ZWS.Value.mapTimes]
  | address a => exact ⟨_, rfl, by simp [toZeek, hP.addr, Outcome.ofOption, ZWS.Value.mapTimes]⟩
  | subnet n => exact ⟨_, rfl, by simp [toZeek, hP.network, Outcome.ofOption, ZWS.Value.mapTimes]⟩
  | port p => exact ⟨_, rfl, by simp [toZeek, Protocol.toZeek_ofZeek, ZWS.Value.mapTimes]⟩
  | vector xs => simp [ZWS.Value.discriminant] at hv
  | set xs => simp [ZWS.Value.discriminant] at hv
  | table es => simp [ZWS.Value.discriminant] at hv
  | _ => exact ⟨_, rfl, rfl⟩

theorem Value.entry_round_trip {e e' : ZWS.Value × ZWS.Value}
    (hk : ∃ n, ofZeek P e.1 = .ok n ∧ toZeek P n = .ok e'.1)
    (hv : ∃ n, ofZeek P e.2 = .ok n ∧ toZeek P n = .ok e'.2) :
    ∃ n, ofZeekEntry P e = .ok n ∧ ∀ _ : Unit, toZeekEntry P n = .ok e' := by
  obtain ⟨k, hk, hk'⟩ := hk
  obtain ⟨v, hv, hv'⟩ := hv
  exact ⟨(k, v), Outcome.pair_eq_ok.mpr ⟨hk, hv⟩, fun _ => Outcome.pair_eq_ok.mpr ⟨hk', hv'⟩⟩

theorem Value.seq_round_trip {xs : List ZWS.Value} (h : ∀ x ∈ xs, ∃ n, ofZeek P x = .ok n ∧
    toZeek P n = .ok (x.mapTimes OffsetDateTime.utc)) :
    ∃ ns, xs.mapM (ofZeek P) = .ok ns ∧
      ns.mapM (toZeek P) = .ok (xs.map (ZWS.Value.mapTimes OffsetDateTime.utc)) := by
  obtain ⟨ns, hns, hvs⟩ := Outcome.mapM_round_trip (g := fun _ : Unit => toZeek P) fun x hx => by
    obtain ⟨n, hn, hn'⟩ := h x hx
    exact ⟨n, hn, fun _ => hn'⟩
  exact ⟨ns, hns, hvs ()⟩

/-- A value that Node was given comes back with its timestamps in UTC. -/
theorem Value.round_trip (hP : P.RoundTrips) (ho : P.localOffset = some o) (v : ZWS.Value)
    (h : ∀ w ∈ v.parts, Crosses o w) :
    ∃ n, ofZeek P v = .ok n ∧ toZeek P n = .ok (v.mapTimes OffsetDateTime.utc) := by
  have hutc := OffsetDateTime.unixNanos_utc
  induction v using ZWS.Value.induct with
  | leaf v hv =>
    rw [ZWS.Value.parts_leaf hv, List.forall_mem_singleton] at h
    exact leaf_round_trip hP ho hv h
  | vector xs ih =>
    obtain ⟨-, hxs⟩ := ZWS.Value.forall_parts_vector.mp h
    obtain ⟨ns, hns, hvs⟩ := seq_round_trip fun x hx => ih x hx (hxs x hx)
    refine ⟨.vector ns, by rw [ofZeek_vector, hns]; rfl, ?_⟩
    rw [toZeek_vector, hvs, ZWS.Value.mapTimes, ZWS.Value.mapTimesSeq_eq]
    rfl
  | set xs ih =>
    obtain ⟨hasc, hxs⟩ := ZWS.Value.forall_parts_set.mp h
    obtain ⟨ns, hns, hvs⟩ := seq_round_trip fun x hx => ih x hx (hxs x hx)
    refine ⟨.set ns, by rw [ofZeek_set, hns]; rfl, ?_⟩
    rw [toZeek_set, hvs, ZWS.Value.mapTimes, ZWS.Value.mapTimesSeq_eq, Outcome.ok_bind,
      collectBy_of_ascending (ZWS.Value.ascending_mapTimes hutc hasc)]
  | table es ih =>
    obtain ⟨hasc, hes⟩ := ZWS.Value.forall_parts_table.mp h
    obtain ⟨ns, hns, hvs⟩ := Outcome.mapM_round_trip (g := fun _ : Unit => toZeekEntry P)
      (h := fun e => (ZWS.Value.mapTimes OffsetDateTime.utc e.1, ZWS.Value.mapTimes OffsetDateTime.utc e.2))
      fun e he => entry_round_trip ((ih e he).1 (hes e he).1) ((ih e he).2 (hes e he).2)
    refine ⟨.table ns, by rw [ofZeek_table, hns]; rfl, ?_⟩
    rw [toZeek_table, hvs (), ZWS.Value.mapTimes, ZWS.Value.mapTimesEntries_eq, Outcome.ok_bind,
      collectBy_of_ascending (ZWS.Value.ascending_mapTimes_entries hutc hasc)]

/-- The event with its timestamps rewritten. -/
def mapTimes (f : OffsetDateTime → OffsetDateTime) (e : ZWS.Event) : ZWS.Event :=
  ⟨e.name, e.args.map (ZWS.Value.mapTimes f), e.metadata.map (ZWS.Value.mapTimes f)⟩

theorem toValue_mapTimes (f : OffsetDateTime → OffsetDateTime) (e : ZWS.Event) :
    (Data.event (mapTimes f e)).toValue = (Data.event e).toValue.mapTimes f := by
  simp [Data.toValue, mapTimes, ZWS.Value.mapTimes, ZWS.Value.mapTimesSeq, ZWS.Value.mapTimesSeq_eq]

theorem mapTimes_equal {f : OffsetDateTime → OffsetDateTime} (hf : ∀ t, (f t).unixNanos = t.unixNanos)
    (e : ZWS.Event) : (mapTimes f e).Equal e := by
  have hmap : ∀ xs : List ZWS.Value,
      List.Forall₂ ZWS.Value.Equal (xs.map (ZWS.Value.mapTimes f)) xs := fun xs =>
    List.forall₂_map_left_iff.mpr (List.forall₂_same.mpr fun x _ => ZWS.Value.mapTimes_equal hf x)
  exact ⟨rfl, hmap e.args, hmap e.metadata⟩

theorem Event.round_trip (hP : P.RoundTrips) (ho : P.localOffset = some o) (e : ZWS.Event)
    (h : ∀ v ∈ e.args ++ e.metadata, ∀ w ∈ v.parts, Crosses o w) :
    ∃ n, ofZeek P e = .ok n ∧ toZeek P n = .ok (mapTimes OffsetDateTime.utc e) := by
  obtain ⟨hargs, hmeta⟩ := List.forall_mem_append.mp h
  obtain ⟨args, ha, ha'⟩ := Value.seq_round_trip fun x hx => Value.round_trip hP ho x (hargs x hx)
  obtain ⟨metadata, hm, hm'⟩ := Value.seq_round_trip fun x hx => Value.round_trip hP ho x (hmeta x hx)
  exact ⟨⟨e.name, args, metadata⟩, by simp [ofZeek, ha, hm], by simp [toZeek, ha', hm', mapTimes]⟩

/-- A value that the bindings can carry: no timespans, only numbers for reals, and instants that
`i64` nanoseconds reach. -/
structure Portable (v : ZWS.Value) : Prop where
  canonical : v.Canonical
  finite : v.RealsFinite
  noTimespan : ∀ d, .timespan d ∉ v.parts
  near : ∀ t, .timestamp t ∈ v.parts → FitsI64 t.unixNanos

theorem Portable.ready {v : ZWS.Value} (h : Portable v) : ∀ w ∈ v.parts, ZWS.Value.Ready o w :=
  ZWS.Value.ready_of h.canonical h.finite (fun t ht => OffsetDateTime.checkedToOffset_isSome (h.near t ht) o)
    fun d hd => absurd hd (h.noTimespan d)

/-- What was read back from JSON is at the local offset, and crosses. -/
theorem Portable.crosses {v : ZWS.Value} (h : Portable v) :
    ∀ w ∈ (v.atOffset o).parts, Crosses o w := by
  rw [ZWS.Value.atOffset, ZWS.Value.parts_mapTimes, List.forall_mem_map]
  intro w hw
  cases w with
  | timespan d => exact absurd hw (h.noTimespan d)
  | timestamp t =>
    obtain ⟨t', ht'⟩ := Option.isSome_iff_exists.mp (OffsetDateTime.checkedToOffset_isSome (h.near t hw) o)
    obtain ⟨hnanos, hoff⟩ := OffsetDateTime.unixNanos_of_checkedToOffset ht'
    simp only [ZWS.Value.mapTimes, ht', Option.getD_some]
    exact ⟨hoff, by rw [hnanos]; exact h.near t hw⟩
  | set xs =>
    rw [ZWS.Value.mapTimes, ZWS.Value.mapTimesSeq_eq]
    exact ZWS.Value.ascending_atOffset (h.canonical _ hw)
  | table es =>
    rw [ZWS.Value.mapTimes, ZWS.Value.mapTimesEntries_eq]
    exact ZWS.Value.ascending_atOffset_entries (h.canonical _ hw)
  | _ => trivial

/-- Acknowledgements, errors, and events of portable values. -/
def Message.Portable : ZWS.Message → Prop
  | .ack _ _ => True
  | .error _ _ => True
  | .dataMessage _ (.event e) => ∀ v ∈ e.args ++ e.metadata, Node.Portable v
  | .dataMessage _ (.other _) => False

theorem event_ready {e : ZWS.Event} (h : ∀ v ∈ e.args ++ e.metadata, Portable v) :
    ∀ w ∈ (Data.event e).toValue.parts, ZWS.Value.Ready o w := by
  obtain ⟨hargs, hmeta⟩ := List.forall_mem_append.mp h
  simp only [Data.toValue, ZWS.Value.forall_parts_vector, List.forall_mem_cons, List.not_mem_nil,
    false_implies, implies_true, and_true]
  refine ⟨trivial, by simp [ZWS.Value.parts, ZWS.Value.Ready], by simp [ZWS.Value.parts, ZWS.Value.Ready],
    trivial, by simp [ZWS.Value.parts, ZWS.Value.Ready], ⟨trivial, fun v hv => (hargs v hv).ready⟩,
    trivial, fun v hv => (hmeta v hv).ready⟩

/-- The clock that JSON is read at. -/
def atClock (o : UtcOffset) (t : OffsetDateTime) : OffsetDateTime := (t.checkedToOffset o).getD t

/-- Events that differ in the clocks of their timestamps have the same JSON. -/
theorem encode_mapTimes {f : OffsetDateTime → OffsetDateTime} (hf : ∀ t, (f t).unixNanos = t.unixNanos)
    (topic : String) (e : ZWS.Event) :
    (ZWS.Message.dataMessage topic (.event (mapTimes f e))).encode P =
      (ZWS.Message.dataMessage topic (.event e)).encode P := by
  simp only [ZWS.Message.encode, toValue_mapTimes, ZWS.Value.tag_mapTimes,
    ZWS.Value.encodeContent_mapTimes hf]

theorem event_decode (hP : P.RoundTrips) (ho : P.localOffset = some o) (topic : String) {e : ZWS.Event}
    (h : ∀ v ∈ e.args ++ e.metadata, Portable v) :
    ∃ j, (ZWS.Message.dataMessage topic (.event e)).encode P = .ok j ∧
      ZWS.Message.decode P j = .ok (.dataMessage topic (.event (mapTimes (atClock o) e))) := by
  obtain ⟨c, hc, hd⟩ := ZWS.Value.content_round_trip hP ho (Data.event e).toValue (event_ready h)
  refine ⟨.obj [(typeKey, .str ZWS.Message.Tag.dataMessage.name), ("topic", .str topic),
    (tagKey, .str (Data.event e).toValue.tag.name), (contentKey, c)], ?_, ?_⟩
  · simp [ZWS.Message.encode, hc]
  · have hback : (Data.event e).toValue.atOffset o = (Data.event (mapTimes (atClock o) e)).toValue :=
      (toValue_mapTimes _ e).symm
    rw [ZWS.Message.decode_dataMessage, hd true, Outcome.ok_bind, hback, Data.ofValue_toValue]

/-- JSON that is read into Node and written again is the same text, and stands for a message
equal to the one it came from. -/
theorem pipeline_lossless (P : Platform) (hP : P.RoundTrips) (o : UtcOffset)
    (ho : P.localOffset = some o) (m : ZWS.Message) (hm : Message.Portable m)
    (hjson : ∀ j, m.encode P = .ok j → P.parseJson (P.renderJson j).toUTF8 = some j) :
    ∃ j n m', m.encode P = .ok j ∧ deserializeJson P (P.renderJson j) = .ok n ∧
      serializeJson P n = .ok (P.renderJson j) ∧
      ZWS.Message.fromBytes P (P.renderJson j).toUTF8 = .ok m' ∧ m'.Equal m := by
  have hbytes : ∀ j m', m.encode P = .ok j → ZWS.Message.decode P j = .ok m' →
      ZWS.Message.fromBytes P (P.renderJson j).toUTF8 = .ok m' := by
    intro j m' hj hd
    rw [ZWS.Message.fromBytes, hjson j hj]
    simp only [hd, Outcome.mapErr]
  cases m with
  | ack endpoint version =>
    have hb := hbytes _ _ rfl (ZWS.Message.decode_ack P endpoint version)
    exact ⟨_, .ack endpoint version, _, rfl, by rw [deserializeJson, hb]; rfl, rfl, hb, rfl, rfl⟩
  | error code context =>
    have hb := hbytes _ _ rfl (ZWS.Message.decode_error P code context)
    exact ⟨_, .error code context, _, rfl, by rw [deserializeJson, hb]; rfl, rfl, hb, rfl, rfl⟩
  | dataMessage topic data =>
    cases data with
    | other v => exact hm.elim
    | event e =>
      have hclock : ∀ t, (atClock o t).unixNanos = t.unixNanos := ZWS.Value.unixNanos_getD o
      obtain ⟨j, hj, hd⟩ := event_decode hP ho topic hm
      have hb := hbytes j _ hj hd
      have hcross : ∀ v ∈ (mapTimes (atClock o) e).args ++ (mapTimes (atClock o) e).metadata,
          ∀ w ∈ v.parts, Crosses o w := by
        simp only [mapTimes, ← List.map_append]
        exact List.forall_mem_map.mpr fun v hv => (hm v hv).crosses
      obtain ⟨n, hn, hn'⟩ := Event.round_trip hP ho _ hcross
      refine ⟨j, .event topic n, _, hj, ?_, ?_, hb, rfl, mapTimes_equal hclock e⟩
      · rw [deserializeJson, hb]
        simp [Outcome.mapErr, hn]
      · have hsame : (ZWS.Message.dataMessage topic
            (.event (mapTimes OffsetDateTime.utc (mapTimes (atClock o) e)))).encode P = .ok j := by
          rw [encode_mapTimes OffsetDateTime.unixNanos_utc, encode_mapTimes hclock]
          exact hj
        simp [serializeJson, Message.toZeek, hn', ZWS.Message.newData_eq, hsame, Outcome.mapErr]

end

/-- An event with a set of a number, an instant and an address. -/
def seen : ZWS.Message :=
  .dataMessage "/seen" (.event (.new "seen"
    [.set [.count 1, .timestamp ⟨Sample.epoch, Sample.utc⟩, .address Sample.loopback]]))

def seenText : String :=
  "\x7b\"type\":\"data-message\",\"topic\":\"/seen\",\"@data-type\":\"vector\"," ++
  "\"data\":[\x7b\"@data-type\":\"count\",\"data\":1\x7d,\x7b\"@data-type\":\"count\"," ++
  "\"data\":1\x7d,\x7b\"@data-type\":\"vector\",\"data\":[\x7b\"@data-type\":\"string\"," ++
  "\"data\":\"seen\"\x7d,\x7b\"@data-type\":\"vector\"," ++
  "\"data\":[\x7b\"@data-type\":\"set\",\"data\":[\x7b\"@data-type\":\"count\"," ++
  "\"data\":1\x7d,\x7b\"@data-type\":\"timestamp\",\"data\":\"1970-01-01T00:00:00.0\"\x7d," ++
  "\x7b\"@data-type\":\"address\",\"data\":\"127.0.0.1\"\x7d]\x7d]\x7d," ++
  "\x7b\"@data-type\":\"vector\",\"data\":[]\x7d]\x7d]\x7d"

def seenJson : Json :=
  match seen.encode Sample.utcPlatform with
  | .ok j => j
  | _ => .null

/-- A machine in UTC that knows this one text. -/
def seenPlatform : Platform :=
  Sample.platform (some Sample.utc) (fun _ => seenText) fun data =>
    if data = seenText.toUTF8 then some seenJson else none

theorem seen_portable : Message.Portable seen := by
  intro v hv
  obtain rfl : v = .set [.count 1, .timestamp ⟨Sample.epoch, Sample.utc⟩, .address Sample.loopback] := by
    simpa [seen, ZWS.Event.new] using hv
  refine ⟨by decide, fun x hx => ?_, fun d hd => ?_, fun t ht => ?_⟩
  · simp [ZWS.Value.parts, ZWS.Value.partsSeq] at hx
  · simp [ZWS.Value.parts, ZWS.Value.partsSeq] at hd
  · obtain rfl : t = ⟨Sample.epoch, Sample.utc⟩ := by
      simpa [ZWS.Value.parts, ZWS.Value.partsSeq] using ht
    decide

theorem seen_lossless :
    ∃ n, deserializeJson seenPlatform seenText = .ok n ∧ serializeJson seenPlatform n = .ok seenText := by
  have hencode : seen.encode seenPlatform = .ok seenJson := rfl
  have hrender : ∀ j, seenPlatform.renderJson j = seenText := fun _ => rfl
  have hparse : ∀ data, seenPlatform.parseJson data =
    if data = seenText.toUTF8 then some seenJson else none := fun _ => rfl
  obtain ⟨j, n, m', -, hn, hn', -, -⟩ := pipeline_lossless seenPlatform (Sample.platform_roundTrips _ _ _)
    Sample.utc rfl seen seen_portable fun j hj => by
      obtain rfl := Outcome.ok.inj (hencode.symm.trans hj)
      rw [hrender, hparse, if_pos rfl]
  exact ⟨n, hn, hn'⟩

end Node

end ZWS
