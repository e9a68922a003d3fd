import ZeekWebSocket.Proofs.NodePipeline

/-! Timestamps on the way to Node. Their date and time of day are read at the local offset, which
gives the right instant only for timestamps that are at that offset already, as those that were
read from JSON are. -/

namespace ZWS.Node

open Base

/-- Node is given the instant of a timestamp. -/
def InstantKept (P : Platform) (t : OffsetDateTime) : Prop :=
  Value.ofZeek P (.timestamp t) = .ok (.timestamp (.ofInt t.unixNanos))

/-- From Node to Zeek and back at once. -/
def ComesBack (P : Platform) (nanos : Int64) : Prop :=
  ∃ v, Value.toZeek P (.timestamp nanos) = .ok v ∧ Value.ofZeek P v = .ok (.timestamp nanos)

/-- From Node to Zeek and back with JSON in between, read directly or out of a buffer. -/
def ComesBackThroughJson (P : Platform) (nanos : Int64) : Prop :=
  ∃ v j, Value.toZeek P (.timestamp nanos) = .ok v ∧ v.encode P = .ok j ∧
    ∀ buf, ∃ w, ZWS.Value.decode P buf j = .ok w ∧ Value.ofZeek P w = .ok (.timestamp nanos)

section
variable {P : Platform} {o : UtcOffset}

/-- What Node is given: the local time of the timestamp, as if the clock were at the local
offset. -/
theorem ofZeek_timestamp_eq_ok (ho : P.localOffset = some o) {t : OffsetDateTime} {nanos : Int64} :
    Value.ofZeek P (.timestamp t) = .ok (.timestamp nanos) ↔
      t.localTime.nanos - o.seconds * 10 ^ 9 = nanos.toInt := by
  have hnanos : (OffsetDateTime.newInOffset t.localTime o).unixNanos =
      t.localTime.nanos - o.seconds * 10 ^ 9 := rfl
  rw [Value.ofZeek, ho, Outcome.ofOption, Outcome.ok_bind, hnanos]
  by_cases h : FitsI64 (t.localTime.nanos - o.seconds * 10 ^ 9)
  · simp only [if_pos h, Outcome.pure_def, Outcome.ok.injEq, Value.timestamp.injEq,
      ← Int64.toInt_inj, h.toInt_ofInt]
  · simp only [if_neg h, reduceCtorEq, false_iff]
    intro heq
    exact h (heq ▸ fitsI64_toInt nanos)

theorem instantKept_iff (ho : P.localOffset = some o) {t : OffsetDateTime} (h : FitsI64 t.unixNanos) :
    InstantKept P t ↔ t.offset = o := by
  rw [InstantKept, ofZeek_timestamp_eq_ok ho, h.toInt_ofInt, OffsetDateTime.unixNanos,
    UtcOffset.ext_iff]
  omega

/-- `i64` nanoseconds are a time in UTC. -/
theorem toZeek_timestamp (P : Platform) (nanos : Int64) :
    ∃ t, Value.toZeek P (.timestamp nanos) = .ok (.timestamp t) ∧ t.unixNanos = nanos.toInt ∧
      t.offset.seconds = 0 := by
  obtain ⟨h1, h2⟩ := fitsI64_toInt nanos
  have hr : minDateTime ≤ nanos.toInt ∧ nanos.toInt ≤ maxDateTime := by
    unfold minDateTime maxDateTime
    omega
  refine ⟨⟨⟨nanos.toInt, hr⟩, ⟨0, by norm_num⟩⟩, ?_, by simp [OffsetDateTime.unixNanos], rfl⟩
  simp [Value.toZeek, OffsetDateTime.ofUnixNanos, hr, Outcome.ofOption]

theorem comesBack_iff (ho : P.localOffset = some o) (nanos : Int64) :
    ComesBack P nanos ↔ o.seconds = 0 := by
  obtain ⟨t, ht, hnanos, hoff⟩ := toZeek_timestamp P nanos
  rw [OffsetDateTime.unixNanos, hoff] at hnanos
  unfold ComesBack
  rw [ht]
  refine ⟨?_, ?_⟩
  · rintro ⟨v, hv, hback⟩
    obtain rfl := Outcome.ok.inj hv
    have := (ofZeek_timestamp_eq_ok ho).mp hback
    omega
  · intro hutc
    exact ⟨_, rfl, (ofZeek_timestamp_eq_ok ho).mpr (by omega)⟩

/-- The writer converts to the local offset and the reader assumes it. -/
theorem comesBackThroughJson (hP : P.RoundTrips) (ho : P.localOffset = some o) (nanos : Int64) :
    ComesBackThroughJson P nanos := by
  obtain ⟨t, ht, hnanos, -⟩ := toZeek_timestamp P nanos
  have hfits : FitsI64 t.unixNanos := hnanos ▸ fitsI64_toInt nanos
  obtain ⟨t', ht'⟩ := Option.isSome_iff_exists.mp (OffsetDateTime.checkedToOffset_isSome hfits o)
  obtain ⟨hsame, hoff⟩ := OffsetDateTime.unixNanos_of_checkedToOffset ht'
  have hready : ∀ w ∈ (ZWS.Value.timestamp t).parts, ZWS.Value.Ready o w := by
    simp [ZWS.Value.parts, ZWS.Value.Ready, ht']
  obtain ⟨j, hj, hd⟩ := ZWS.Value.decode_encode hP ho hready
  have hback : InstantKept P t' := (instantKept_iff ho (hsame ▸ hfits)).mpr hoff
  refine ⟨.timestamp t, j, ht, hj, fun buf => ⟨.timestamp t', ?_, ?_⟩⟩
  · rw [hd buf, ZWS.Value.atOffset, ZWS.Value.mapTimes, ht', Option.getD_some]
  · rw [hback, hsame, hnanos, Int64.ofInt_toInt]

end

/-- Node is given the instant of a timestamp exactly if the timestamp is at the local offset.
Nanoseconds from Node come back at once exactly where that offset is that of UTC, and through
JSON they always come back. -/
theorem timestamp_instants_iff (P : Platform) (hP : P.RoundTrips) (o : UtcOffset)
    (ho : P.localOffset = some o) :
    (∀ t, FitsI64 t.unixNanos → (InstantKept P t ↔ t.offset = o)) ∧
      (∀ nanos, ComesBack P nanos ↔ o.seconds = 0) ∧ ∀ nanos, ComesBackThroughJson P nanos :=
  ⟨fun _ => instantKept_iff ho, comesBack_iff ho, comesBackThroughJson hP ho⟩

/-- An hour ahead of UTC. -/
def hourAhead : UtcOffset := ⟨3600, by decide⟩

def hourAheadPlatform : Platform := Sample.platform (some hourAhead) (fun _ => "") fun _ => none

theorem hourAhead_instants :
    InstantKept hourAheadPlatform ⟨Sample.epoch, hourAhead⟩ ∧
      ComesBackThroughJson hourAheadPlatform 1 := by
  obtain ⟨hkept, -, hjson⟩ := timestamp_instants_iff hourAheadPlatform
    (Sample.platform_roundTrips _ _ _) hourAhead rfl
  exact ⟨(hkept ⟨Sample.epoch, hourAhead⟩ (by decide)).mpr rfl, hjson 1⟩

/-- The epoch in UTC becomes the hour before it. -/
theorem epoch_not_kept :
    ¬ (FitsI64 (OffsetDateTime.unixNanos ⟨Sample.epoch, Sample.utc⟩) →
      InstantKept hourAheadPlatform ⟨Sample.epoch, Sample.utc⟩ ∧ ComesBack hourAheadPlatform 0) := by
  intro h
  obtain ⟨-, v, hv, hback⟩ := h (by decide)
  have hv' : Value.toZeek hourAheadPlatform (.timestamp 0) =
      .ok (.timestamp ⟨Sample.epoch, Sample.utc⟩) := rfl
  obtain rfl := Outcome.ok.inj (hv'.symm.trans hv)
  have := (ofZeek_timestamp_eq_ok rfl).mp hback
  revert this
  decide

end ZWS.Node
