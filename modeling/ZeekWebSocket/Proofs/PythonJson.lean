import ZeekWebSocket.Proofs.Publish
import ZeekWebSocket.Proofs.PythonRoundTrip
import ZeekWebSocket.Sanity.Mock
import ZeekWebSocket.Spec.PyJson

/-! The JSON of Python values and events. What is written is read back as an equal value, up to the
names of fields, and is a fixed point: it is written again as the same text. -/

namespace ZWS

open Base

namespace Python

namespace Value

/-- Every part of what a value is converted to comes from a part of the value. -/
theorem forall_parts_of_toRust {Q : ZWS.Value → Prop} {p : Value} {v : ZWS.Value}
    (h : toRust p = .ok v) (hp : ∀ q ∈ p.parts, ∀ w, toRust q = .ok w → Q w) :
    ∀ w ∈ v.parts, Q w := by
  induction p using induct generalizing v with
  | leaf p hleaf =>
    have hv := hp p (by simp [parts_leaf hleaf]) v h
    cases p with
    | subnet a len =>
      obtain ⟨n, -, h⟩ := Outcome.bind_eq_ok.mp h
      obtain rfl := Outcome.ok.inj h
      simpa [ZWS.Value.parts] using hv
    | vector xs => exact hleaf.elim
    | set xs => exact hleaf.elim
    | table es => exact hleaf.elim
    | record fs => exact hleaf.elim
    | _ =>
      obtain rfl := Outcome.ok.inj h
      simpa [ZWS.Value.parts] using hv
  | vector xs ih =>
    obtain ⟨h0, hxs⟩ := forall_parts_vector.mp hp
    have hq := h0 v h
    rw [toRust_vector] at h
    obtain ⟨vs, hvs, h⟩ := Outcome.bind_eq_ok.mp h
    obtain rfl := Outcome.ok.inj h
    refine ZWS.Value.forall_parts_vector.mpr ⟨hq, fun y hy => ?_⟩
    obtain ⟨x, hx, hxy⟩ := Outcome.mem_of_mapM hvs hy
    exact ih x hx hxy (hxs x hx)
  | set xs ih =>
    obtain ⟨h0, hxs⟩ := forall_parts_set.mp hp
    have hq := h0 v h
    rw [toRust_set] at h
    obtain ⟨vs, hvs, h⟩ := Outcome.bind_eq_ok.mp h
    obtain rfl := Outcome.ok.inj h
    refine ZWS.Value.forall_parts_set.mpr ⟨hq, fun y hy => ?_⟩
    obtain ⟨x, hx, hxy⟩ := Outcome.mem_of_mapM hvs (mem_collectBy keepNew_picks hy)
    exact ih x hx hxy (hxs x hx)
  | table es ih =>
    obtain ⟨h0, hes⟩ := forall_parts_table.mp hp
    have hq := h0 v h
    rw [toRust_table] at h
    obtain ⟨fs, hfs, h⟩ := Outcome.bind_eq_ok.mp h
    obtain rfl := Outcome.ok.inj h
    refine ZWS.Value.forall_parts_table.mpr ⟨hq, fun f hf => ?_⟩
    obtain ⟨e, he, hef⟩ := Outcome.mem_of_mapM hfs (mem_collectBy keepNew_picks hf)
    obtain ⟨hk, hv⟩ := toRustEntry_eq_ok.mp hef
    exact ⟨(ih e he).1 hk (hes e he).1, (ih e he).2 hv (hes e he).2⟩
  | record fs ih =>
    obtain ⟨h0, hfs⟩ := forall_parts_record.mp hp
    have hq := h0 v h
    rw [toRust_record, toRust_vector, List.mapM_map] at h
    obtain ⟨vs, hvs, h⟩ := Outcome.bind_eq_ok.mp h
    obtain rfl := Outcome.ok.inj h
    refine ZWS.Value.forall_parts_vector.mpr ⟨hq, fun y hy => ?_⟩
    obtain ⟨f, hf, hfy⟩ := Outcome.mem_of_mapM hvs hy
    exact ih f hf hfy (hfs f hf)

def RealsFinite (p : Value) : Prop := ∀ x, .real x ∈ p.parts → x.isFinite

def TimesFit (o : UtcOffset) (p : Value) : Prop :=
  ∀ t, .timestamp t ∈ p.parts → (t.checkedToOffset o).isSome

theorem toRust_eq_real {q : Value} {x : F64} (h : toRust q = .ok (.real x)) : q = .real x := by
  cases q <;> simp_all [toRust, Outcome.bind_eq_ok]

theorem toRust_eq_timestamp {q : Value} {t : OffsetDateTime} (h : toRust q = .ok (.timestamp t)) :
    q = .timestamp t := by
  cases q <;> simp_all [toRust, Outcome.bind_eq_ok]

theorem realsFinite_of_toRust {p : Value} {v : ZWS.Value} (h : toRust p = .ok v) (hr : p.RealsFinite) :
    v.RealsFinite := by
  have key := forall_parts_of_toRust (Q := fun w => ∀ x, w = .real x → x.isFinite) h
    fun q hq w hw x hx => hr x (by rw [← toRust_eq_real (hx ▸ hw)]; exact hq)
  exact fun x hx => key _ hx x rfl

theorem timesFit_of_toRust {o : UtcOffset} {p : Value} {v : ZWS.Value} (h : toRust p = .ok v)
    (ht : p.TimesFit o) : v.TimesFit o := by
  have key := forall_parts_of_toRust (Q := fun w => ∀ t, w = .timestamp t → (t.checkedToOffset o).isSome) h
    fun q hq w hw t hwt => ht t (by rw [← toRust_eq_timestamp (hwt ▸ hw)]; exact hq)
  exact fun t ht => key _ ht t rfl

end Value

section
variable {P : Platform} {o : UtcOffset}

theorem canonical_atOffset {v : ZWS.Value} (h : v.Canonical) : (v.atOffset o).Canonical := by
  rw [ZWS.Value.Canonical, ZWS.Value.atOffset, ZWS.Value.parts_mapTimes, List.forall_mem_map]
  intro w hw
  cases w with
  | set xs =>
    rw [ZWS.Value.mapTimes, ZWS.Value.mapTimesSeq_eq]
    exact ZWS.Value.ascending_atOffset (h _ hw)
  | table es =>
    rw [ZWS.Value.mapTimes, ZWS.Value.mapTimesEntries_eq]
    exact ZWS.Value.ascending_atOffset_entries (h _ hw)
  | _ => trivial

theorem encode_atOffset (v : ZWS.Value) : (v.atOffset o).encode P = v.encode P := by
  have hf : ∀ t : OffsetDateTime, ((t.checkedToOffset o).getD t).unixNanos = t.unixNanos :=
    ZWS.Value.unixNanos_getD o
  rw [ZWS.Value.atOffset, ZWS.Value.encode, ZWS.Value.encode, ZWS.Value.encodeContent_mapTimes hf,
    ZWS.Value.tag_mapTimes]

/-- A timespan of the value that has no text. -/
def Unwritable (v : ZWS.Value) : Prop :=
  ∃ d, .timespan d ∈ v.parts ∧ d.subsecNanoseconds ≠ 0 ∧ ¬ FitsI64 d.wholeNanoseconds

/-- The text of a value is read back at the local offset, and written as the same text. -/
theorem text_round_trip (hP : P.RoundTrips) (ho : P.localOffset = some o) {v : ZWS.Value}
    (hc : v.Canonical) (hr : v.RealsFinite) (ht : v.TimesFit o)
    (hjson : ∀ j, v.encode P = .ok j → P.Legible j) :
    ((∃ e, valueToText P v = .err e) ∧ Unwritable v) ∨
      (¬ Unwritable v ∧ ∃ s, valueToText P v = .ok s ∧
        valueFromText P s = .ok (v.atOffset o) ∧ valueToText P (v.atOffset o) = .ok s) := by
  by_cases hu : Unwritable v
  · left
    obtain ⟨d, hd, hsub, hfit⟩ := hu
    refine ⟨?_, d, hd, hsub, hfit⟩
    cases hv : v.encode P with
    | ok j =>
      exact absurd (ZWS.Value.exists_encode_iff.mp ⟨j, hv⟩ _ hd)
        (ZWS.Value.not_representable_iff.mpr ⟨hsub, hfit⟩)
    | err e => exact ⟨_, by rw [valueToText, hv]; rfl⟩
    | panic => exact absurd hv (ZWS.Value.encode_ne_panic_of_timesFit hP ho ht)
  · right
    have hspan : ∀ d, .timespan d ∈ v.parts → Timespan.Representable d := fun d hd => by
      by_contra hnot
      exact hu ⟨d, hd, ZWS.Value.not_representable_iff.mp hnot⟩
    obtain ⟨j, hj, hd⟩ := ZWS.Value.decode_encode hP ho (ZWS.Value.ready_of hc hr ht hspan)
    refine ⟨hu, P.renderJson j, by rw [valueToText, hj]; rfl, ?_, ?_⟩
    · have hparse : P.parseJson (P.renderJson j).toUTF8 = some j := hjson j hj
      rw [valueFromText, hparse]
      simp only [hd, Outcome.mapErr]
    · rw [valueToText, encode_atOffset, hj]
      rfl

end

namespace Value

/-- `q` comes back for `p`. Records become vectors. -/
structure Returned (q p : Value) : Prop where
  converted : ∃ v, p.toRust = .ok v ∧ q.Equal (ofRust v)
  same : p.Canonical → p.RecordFree → q.Equal p

theorem returned_of_equal {p q : Value} {v : ZWS.Value} (hv : p.toRust = .ok v)
    (hequal : q.Equal (ofRust v)) : Returned q p := by
  refine ⟨⟨v, hv, hequal⟩, fun hc hr => ?_⟩
  obtain ⟨w, hw⟩ := exists_same hc hr (exists_toRust_ok.mp ⟨v, hv⟩)
  obtain rfl := Outcome.ok.inj (hw.1.symm.trans hv)
  rwa [hw.2] at hequal

/-- Writing a value fails exactly for an oversized subnet or a timespan without a text. What is
written otherwise is read back as the value, and that is written as the same text. -/
theorem value_text_returns (P : Platform) (hP : P.RoundTrips) (o : UtcOffset)
    (ho : P.localOffset = some o) (p : Value) (hr : p.RealsFinite) (ht : p.TimesFit o)
    (hjson : ∀ v j, p.toRust = .ok v → v.encode P = .ok j → P.Legible j) :
    p.serializeJson P ≠ .panic ∧
    ((∃ e, p.serializeJson P = .err e) ↔
      (∃ w ∈ p.parts, w.Oversized) ∨ ∃ v, p.toRust = .ok v ∧ Unwritable v) ∧
    ∀ s, p.serializeJson P = .ok s → ∃ q, deserializeJson P s = .ok q ∧ Returned q p ∧
      q.serializeJson P = .ok s := by
  rw [← exists_toRust_err]
  cases hv : p.toRust with
  | panic => exact absurd hv (toRust_ne_panic p)
  | err e =>
    have hs : p.serializeJson P = .err (.notConverted e) := by rw [serializeJson, hv]; rfl
    exact ⟨by simp [hs], iff_of_true ⟨_, hs⟩ (.inl ⟨e, rfl⟩), fun s h => by simp [hs] at h⟩
  | ok v =>
    have hs : p.serializeJson P = valueToText P v := by rw [serializeJson, hv]; rfl
    have hc := canonical_of_toRust hv
    rw [hs]
    rcases text_round_trip hP ho hc (realsFinite_of_toRust hv hr) (timesFit_of_toRust hv ht)
      (fun j hj => hjson v j hv hj) with ⟨⟨e, he⟩, hu⟩ | ⟨hu, s, hs, hread, hagain⟩
    · exact ⟨by simp [he], iff_of_true ⟨e, he⟩ (.inr ⟨v, rfl, hu⟩), fun s h => by simp [he] at h⟩
    · refine ⟨by simp [hs], by simp [hs, hu], fun s' h => ?_⟩
      obtain rfl := Outcome.ok.inj (hs.symm.trans h)
      refine ⟨ofRust (v.atOffset o), by rw [deserializeJson, hread]; rfl,
        returned_of_equal hv (ofRust_equal (ZWS.Value.atOffset_equal o v)), ?_⟩
      rw [serializeJson, (same_ofRust (canonical_atOffset hc)).1]
      exact hagain

/-- A record of a number, and a set of a subnet and a port. -/
def host : Value :=
  .record [("id", .count 1), ("seen", .set [.subnet Sample.loopback 8, .port 22 .tcp])]

def hostJson : Json :=
  match host.toRust with
  | .ok v => match v.encode Sample.utcPlatform with
    | .ok j => j
    | _ => .null
  | _ => .null

theorem host_leaves (p : Value) (hp : p ∈ host.parts) :
    (∀ x, p ≠ .real x) ∧ ∀ t, p ≠ .timestamp t := by
  simp only [host, parts, partsFields, partsSeq, List.cons_append, List.nil_append, List.append_nil,
    List.mem_cons, List.not_mem_nil, or_false] at hp
  rcases hp with rfl | rfl | rfl | rfl | rfl <;> simp

theorem host_returned : ∃ s q, host.serializeJson (Sample.textPlatform [hostJson]) = .ok s ∧
    deserializeJson (Sample.textPlatform [hostJson]) s = .ok q ∧ Returned q host := by
  obtain ⟨s, hs⟩ : ∃ s, host.serializeJson (Sample.textPlatform [hostJson]) = .ok s := ⟨_, rfl⟩
  obtain ⟨q, hq, hreturned, -⟩ := (value_text_returns (Sample.textPlatform [hostJson])
    (Sample.platform_roundTrips _ _ _) Sample.utc rfl host
    (fun x hx => absurd rfl ((host_leaves _ hx).1 x)) (fun t ht => absurd rfl ((host_leaves _ ht).2 t))
    fun v j hv hj => by
      obtain rfl := Outcome.ok.inj hv
      obtain rfl := Outcome.ok.inj hj
      exact Sample.textPlatform_parse (by simp) List.mem_cons_self).2.2 s hs
  exact ⟨s, q, hs, hq, hreturned⟩

end Value

namespace PyEvent

variable {P : Platform} {o : UtcOffset}

theorem new_eq_ok {name : String} {args metadata : List Value} {e : PyEvent}
    (h : new name args metadata = .ok e) : e.inner.name = name ∧
      args.mapM Value.toRust = .ok e.inner.args ∧ metadata.mapM Value.toRust = .ok e.inner.metadata := by
  simp only [new, Outcome.bind_eq_ok, Outcome.mapErr_eq_ok] at h
  obtain ⟨vs, hvs, ws, hws, h⟩ := h
  obtain rfl := Outcome.ok.inj h
  exact ⟨rfl, hvs, hws⟩

/-- What holds of the conversions of all that was given to an event holds of all that is in it. -/
theorem forall_of_new {Q : ZWS.Value → Prop} {name : String} {args metadata : List Value} {e : PyEvent}
    (h : new name args metadata = .ok e) (hQ : ∀ p ∈ args ++ metadata, ∀ v, p.toRust = .ok v → Q v) :
    ∀ v ∈ e.inner.args ++ e.inner.metadata, Q v := by
  obtain ⟨-, hargs, hmetadata⟩ := new_eq_ok h
  intro v hv
  rcases List.mem_append.mp hv with hv | hv
  · obtain ⟨p, hp, hpv⟩ := Outcome.mem_of_mapM hargs hv
    exact hQ p (List.mem_append_left _ hp) v hpv
  · obtain ⟨p, hp, hpv⟩ := Outcome.mem_of_mapM hmetadata hv
    exact hQ p (List.mem_append_right _ hp) v hpv

theorem returned_atOffset {ps : List Value} {vs : List ZWS.Value} (h : ps.mapM Value.toRust = .ok vs) :
    List.Forall₂ Value.Returned ((vs.map (ZWS.Value.atOffset o)).map Value.ofRust) ps := by
  rw [List.map_map, List.forall₂_map_left_iff]
  exact (Outcome.mapM_eq_ok.mp h).flip.imp fun v p hv =>
    Value.returned_of_equal hv (Value.ofRust_equal (ZWS.Value.atOffset_equal o v))

theorem unwritable_toValue (e : ZWS.Event) :
    Unwritable (Data.event e).toValue ↔ ∃ v ∈ e.args ++ e.metadata, Unwritable v := by
  have key := forall_parts_toValue (Q := fun w => ∀ d, w = .timespan d →
    ¬ (d.subsecNanoseconds ≠ 0 ∧ ¬ FitsI64 d.wholeNanoseconds)) e (by simp) (by simp) (by simp)
  have hiff : ∀ v : ZWS.Value, (∀ w ∈ v.parts, ∀ d, w = .timespan d →
      ¬ (d.subsecNanoseconds ≠ 0 ∧ ¬ FitsI64 d.wholeNanoseconds)) ↔ ¬ Unwritable v := by
    intro v
    refine ⟨fun h hu => ?_, fun h w hw d hd hbad => h ⟨d, hd ▸ hw, hbad⟩⟩
    obtain ⟨d, hd, hbad⟩ := hu
    exact h _ hd d rfl hbad
  simp only [hiff] at key
  rw [← not_iff_not, key]
  simp

/-- The same for events, which are always read back as events. -/
theorem event_text_returns (P : Platform) (hP : P.RoundTrips) (o : UtcOffset)
    (ho : P.localOffset = some o) (name : String) (args metadata : List Value) (e : PyEvent)
    (he : new name args metadata = .ok e)
    (hfit : ∀ p ∈ args ++ metadata, p.RealsFinite ∧ p.TimesFit o)
    (hjson : ∀ j, (Data.event e.inner).toValue.encode P = .ok j → P.Legible j) :
    e.serializeJson P ≠ .panic ∧
    ((∃ x, e.serializeJson P = .err x) ↔ ∃ v ∈ e.inner.args ++ e.inner.metadata, Unwritable v) ∧
    ∀ s, e.serializeJson P = .ok s → ∃ e', deserializeJson P s = .ok e' ∧ e'.name = name ∧
      List.Forall₂ Value.Returned e'.args args ∧ List.Forall₂ Value.Returned e'.metadata metadata ∧
      e'.serializeJson P = .ok s := by
  have hc : (Data.event e.inner).toValue.Canonical :=
    (forall_parts_toValue e.inner (fun _ => trivial) (fun _ => trivial) fun _ => trivial).mpr
      (forall_of_new he fun p _ v hv => Value.canonical_of_toRust hv)
  have hr : (Data.event e.inner).toValue.RealsFinite := by
    have key := (forall_parts_toValue (Q := fun w => ∀ x, w = .real x → x.isFinite) e.inner (by simp)
      (by simp) (by simp)).mpr (forall_of_new he fun p hp v hv w hw x hx =>
        Value.realsFinite_of_toRust hv (hfit p hp).1 x (hx ▸ hw))
    exact fun x hx => key _ hx x rfl
  have ht : (Data.event e.inner).toValue.TimesFit o := by
    have key := (forall_parts_toValue (Q := fun w => ∀ t, w = .timestamp t → (t.checkedToOffset o).isSome)
      e.inner (by simp) (by simp) (by simp)).mpr (forall_of_new he fun p hp v hv w hw t hwt =>
        Value.timesFit_of_toRust hv (hfit p hp).2 t (hwt ▸ hw))
    exact fun t ht => key _ ht t rfl
  obtain ⟨hname, hargs, hmetadata⟩ := new_eq_ok he
  have hback : (Data.event e.inner).toValue.atOffset o = (Data.event (e.inner.atOffset o)).toValue :=
    (Node.toValue_mapTimes _ e.inner).symm
  rw [← unwritable_toValue, serializeJson]
  rcases text_round_trip hP ho hc hr ht hjson with ⟨⟨x, hx⟩, hu⟩ | ⟨hu, s, hs, hread, hagain⟩
  · exact ⟨by simp [hx], iff_of_true ⟨x, hx⟩ hu, fun s h => by simp [hx] at h⟩
  · refine ⟨by simp [hs], by simp [hs, hu], fun s' h => ?_⟩
    obtain rfl := Outcome.ok.inj (hs.symm.trans h)
    refine ⟨⟨e.inner.atOffset o⟩, ?_, hname, returned_atOffset hargs, returned_atOffset hmetadata, ?_⟩
    · rw [deserializeJson, hread, hback, Outcome.ok_bind, Data.ofValue_toValue]
      rfl
    · rwa [serializeJson, ← hback]

/-- An event about the host. -/
def sighting : ZWS.Event :=
  match new "sighting" [Value.host] [.string "meta"] with
  | .ok e => e.inner
  | _ => .new "" []

def sightingJson : Json :=
  match (Data.event sighting).toValue.encode Sample.utcPlatform with
  | .ok j => j
  | _ => .null

theorem sighting_returned : ∃ s e',
    serializeJson (Sample.textPlatform [sightingJson]) ⟨sighting⟩ = .ok s ∧
    deserializeJson (Sample.textPlatform [sightingJson]) s = .ok e' ∧ e'.name = "sighting" ∧
    List.Forall₂ Value.Returned e'.args [Value.host] := by
  obtain ⟨s, hs⟩ : ∃ s,
      serializeJson (Sample.textPlatform [sightingJson]) ⟨sighting⟩ = .ok s := ⟨_, rfl⟩
  have hleaves : ∀ p ∈ [Value.host] ++ [Value.string "meta"], ∀ q ∈ p.parts,
      (∀ x, q ≠ .real x) ∧ ∀ t, q ≠ .timestamp t := by
    simp only [List.cons_append, List.nil_append, List.forall_mem_cons, List.not_mem_nil, false_implies,
      implies_true, and_true]
    exact ⟨Value.host_leaves, by simp [Value.parts]⟩
  obtain ⟨e', he', hname, hargs, -⟩ := (event_text_returns (Sample.textPlatform [sightingJson])
    (Sample.platform_roundTrips _ _ _) Sample.utc rfl "sighting" [Value.host] [.string "meta"] ⟨sighting⟩
    rfl (fun p hp => ⟨fun x hx => absurd rfl ((hleaves p hp _ hx).1 x),
      fun t ht => absurd rfl ((hleaves p hp _ ht).2 t)⟩)
    fun j hj => by
      obtain rfl := Outcome.ok.inj hj
      exact Sample.textPlatform_parse (by simp) List.mem_cons_self).2.2 s hs
  exact ⟨s, e', hs, he', hname, hargs⟩

end PyEvent

end Python

end ZWS
