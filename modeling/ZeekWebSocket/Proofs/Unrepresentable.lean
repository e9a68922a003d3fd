import ZeekWebSocket.Proofs.ValueRoundTrip

/-! What becomes of values that the wire format cannot represent. Durations are refused by the
writer, dates that do not exist at the local offset make it panic, and reals that are no
numbers it writes as something the reader refuses. -/

namespace ZWS

open Base

namespace Value

/-- The date of a timestamp leaves the supported years at the local offset. -/
def Undated (P : Platform) (v : Value) : Prop :=
  ∃ t o, v = .timestamp t ∧ P.localOffset = some o ∧ t.checkedToOffset o = Option.none

section
variable {P : Platform} {o : UtcOffset} {buf : Bool}

theorem serialize_eq_panic {t : OffsetDateTime} :
    Timestamp.serialize P t = .panic ↔ Undated P (.timestamp t) := by
  simp [Timestamp.serialize, Outcome.bind_eq_panic, OffsetDateTime.toOffset, Undated]

theorem encode_eq_panic {v : Value} : encode P v = .panic ↔ encodeContent P v = .panic := by
  simp [encode, Outcome.bind_eq_panic]

theorem encodeContent_leaf_eq_panic {v : Value} (h : v.discriminant < 12) :
    encodeContent P v = .panic ↔ Undated P v := by
  cases v with
  | timestamp t => rw [← serialize_eq_panic]; simp [encodeContent, Outcome.bind_eq_panic]
  | timespan d => simp [encodeContent, Outcome.bind_eq_panic, Undated]
  | vector xs => simp [discriminant] at h
  | set xs => simp [discriminant] at h
  | table es => simp [discriminant] at h
  | _ => simp [encodeContent, Undated]

theorem encodeEntry_eq_panic {e : Value × Value} : encodeEntry P e = .panic ↔
    encode P e.1 = .panic ∨ (∃ j, encode P e.1 = .ok j) ∧ encode P e.2 = .panic := by
  simp [encodeEntry, Outcome.bind_eq_panic]

/-- The writer panics exactly if it comes to a timestamp without a date past nothing that it
refuses. -/
theorem encodeContent_eq_panic {v : Value} :
    encodeContent P v = .panic ↔ ComesTo (Writable P) (Undated P) v.parts := by
  induction v using induct with
  | leaf v h => rw [parts_leaf h, comesTo_singleton, encodeContent_leaf_eq_panic h]
  | vector xs ih =>
    have hself : ¬ Undated P (.vector xs) := by simp [Undated]
    rw [encodeContent_vector, parts, partsSeq_eq, comesTo_cons, comesTo_flatMap]
    simp only [hself, writable_vector, false_or, true_and, Outcome.bind_eq_panic, reduceCtorEq,
      and_false, exists_false, or_false, Outcome.mapM_eq_panic]
    exact comesTo_congr (fun x _ => exists_encode_iff) fun x hx => encode_eq_panic.trans (ih x hx)
  | set xs ih =>
    have hself : ¬ Undated P (.set xs) := by simp [Undated]
    rw [encodeContent_set, parts, partsSeq_eq, comesTo_cons, comesTo_flatMap]
    simp only [hself, writable_set, false_or, true_and, Outcome.bind_eq_panic, reduceCtorEq,
      and_false, exists_false, or_false, Outcome.mapM_eq_panic]
    exact comesTo_congr (fun x _ => exists_encode_iff) fun x hx => encode_eq_panic.trans (ih x hx)
  | table es ih =>
    have hself : ¬ Undated P (.table es) := by simp [Undated]
    rw [encodeContent_table, parts, partsEntries_eq, comesTo_cons, comesTo_flatMap]
    simp only [hself, writable_table, false_or, true_and, Outcome.bind_eq_panic, reduceCtorEq,
      and_false, exists_false, or_false, Outcome.mapM_eq_panic]
    refine comesTo_congr (fun e _ => ?_) fun e he => ?_
    · rw [exists_encodeEntry_ok, exists_encode_iff, exists_encode_iff, List.forall_mem_append]
    · rw [encodeEntry_eq_panic, comesTo_append, exists_encode_iff, encode_eq_panic, encode_eq_panic,
        (ih e he).1, (ih e he).2]

theorem finite_of_leaf {v w : Value} {c : Json} (hv : v.discriminant < 12)
    (hc : encodeContent P v = .ok c) (hd : decodeContent P buf v.tag c = .ok w) :
    ∀ x, v = .real x → x.isFinite := by
  rintro x rfl
  by_contra hx
  rw [encodeContent, dif_neg hx] at hc
  obtain rfl := Outcome.ok.inj hc
  simp [tag, decodeContent, decodeLeaf] at hd

theorem decode_of_encode {v w : Value} {j : Json} (hj : encode P v = .ok j)
    (hd : decode P buf j = .ok w) :
    ∃ c, encodeContent P v = .ok c ∧ decodeContent P buf v.tag c = .ok w := by
  obtain ⟨c, hc, rfl⟩ := encode_eq_ok.mp hj
  exact ⟨c, hc, by rwa [decode_tagged] at hd⟩

/-- What reads back has no reals but numbers. -/
theorem finite_of_decodeContent {v w : Value} {c : Json} (hc : encodeContent P v = .ok c)
    (hd : decodeContent P buf v.tag c = .ok w) : ∀ u ∈ v.parts, ∀ x, u = .real x → x.isFinite := by
  have each : ∀ (xs : List Value) js ws,
      (∀ x ∈ xs, ∀ {w c}, encodeContent P x = .ok c → decodeContent P buf x.tag c = .ok w →
        ∀ u ∈ x.parts, ∀ y, u = .real y → y.isFinite) →
      xs.mapM (encode P) = .ok js → js.mapM (decode P buf) = .ok ws →
      ∀ x ∈ xs, ∀ u ∈ x.parts, ∀ y, u = .real y → y.isFinite := by
    intro xs js ws ih hjs hws x hx
    obtain ⟨j, w, hj, hw⟩ := Outcome.mapM_through hjs hws x hx
    obtain ⟨c, hc, hd⟩ := decode_of_encode hj hw
    exact ih x hx hc hd
  induction v using induct generalizing w c with
  | leaf v hv =>
    rw [parts_leaf hv, List.forall_mem_singleton]
    exact finite_of_leaf hv hc hd
  | vector xs ih =>
    rw [encodeContent_vector] at hc
    obtain ⟨js, hjs, hc⟩ := Outcome.bind_eq_ok.mp hc
    obtain rfl := Outcome.ok.inj hc
    rw [tag, decodeContent_vector] at hd
    obtain ⟨ws, hws, -⟩ := Outcome.bind_eq_ok.mp hd
    exact forall_parts_vector.mpr ⟨by simp, each xs js ws ih hjs hws⟩
  | set xs ih =>
    rw [encodeContent_set] at hc
    obtain ⟨js, hjs, hc⟩ := Outcome.bind_eq_ok.mp hc
    obtain rfl := Outcome.ok.inj hc
    rw [tag, decodeContent_set] at hd
    obtain ⟨ws, hws, -⟩ := Outcome.bind_eq_ok.mp hd
    exact forall_parts_set.mpr ⟨by simp, each xs js ws ih hjs hws⟩
  | table es ih =>
    rw [encodeContent_table] at hc
    obtain ⟨js, hjs, hc⟩ := Outcome.bind_eq_ok.mp hc
    obtain rfl := Outcome.ok.inj hc
    rw [tag, decodeContent_table] at hd
    obtain ⟨fs, hfs, -⟩ := Outcome.bind_eq_ok.mp hd
    refine forall_parts_table.mpr ⟨by simp, fun e he => ?_⟩
    obtain ⟨j, f, hj, hf⟩ := Outcome.mapM_through hjs hfs e he
    simp only [encodeEntry, Outcome.bind_eq_ok, Outcome.pure_def, Outcome.ok.injEq] at hj
    obtain ⟨jk, hjk, jv, hjv, rfl⟩ := hj
    rw [decodeEntry_object] at hf
    obtain ⟨k, hk, hf⟩ := Outcome.bind_eq_ok.mp hf
    obtain ⟨w, hw, -⟩ := Outcome.bind_eq_ok.mp hf
    obtain ⟨ck, hck, hdk⟩ := decode_of_encode hjk hk
    obtain ⟨cv, hcv, hdv⟩ := decode_of_encode hjv hw
    exact ⟨(ih e he).1 hck hdk, (ih e he).2 hcv hdv⟩

theorem timesFit_of_writable (ho : P.localOffset = some o) {v : Value}
    (h : ∀ w ∈ v.parts, Writable P w) : v.TimesFit o := by
  intro t ht
  obtain ⟨s, hs⟩ := writable_timestamp.mp (h _ ht)
  cases hfit : t.checkedToOffset o with
  | some t' => rfl
  | none =>
    have hpanic := serialize_eq_panic.mpr ⟨t, o, rfl, ho, hfit⟩
    rw [hs] at hpanic
    simp at hpanic

/-- A value that can be written is read back if its reals are numbers, and only then. -/
theorem decodes_iff (hP : P.RoundTrips) (ho : P.localOffset = some o) {v : Value} (hc : v.Canonical)
    {j : Json} (hj : encode P v = .ok j) : (∃ w, decode P buf j = .ok w) ↔ v.RealsFinite := by
  refine ⟨?_, ?_⟩
  · intro h x hx
    obtain ⟨w, hw⟩ := h
    obtain ⟨c, hc, hd⟩ := decode_of_encode hj hw
    exact finite_of_decodeContent hc hd _ hx x rfl
  · intro hr
    have hw := exists_encode_iff.mp ⟨j, hj⟩
    have hready := ready_of hc hr (timesFit_of_writable ho hw) fun d hd => hw _ hd
    obtain ⟨j', hj', hd⟩ := decode_encode hP ho hready
    obtain rfl := Outcome.ok.inj (hj'.symm.trans hj)
    exact ⟨_, hd buf⟩

end

/-- Whatever has no representation is refused, exactly if the writer comes to no date that does
not exist at the local offset, and the reals are numbers in what it can write. -/
theorem encode_reports_iff (P : Platform) (hP : P.RoundTrips) (o : UtcOffset)
    (ho : P.localOffset = some o) (buf : Bool) (v : Value) (hc : v.Canonical) :
    (encode P v ≠ .panic ∧ ∀ j, encode P v = .ok j → ∃ w, decode P buf j = .ok w) ↔
      ¬ ComesTo (Writable P) (Undated P) v.parts ∧
        ((∀ w ∈ v.parts, Writable P w) → v.RealsFinite) := by
  rw [Ne, encode_eq_panic, encodeContent_eq_panic, ← exists_encode_iff]
  refine and_congr_right fun _ => ⟨?_, ?_⟩
  · intro h hj
    obtain ⟨j, hj⟩ := hj
    exact (decodes_iff hP ho hc hj).mp (h j hj)
  · intro h j hj
    exact (decodes_iff hP ho hc hj).mpr (h ⟨j, hj⟩)

/-- A number that is none. -/
def nan : F64 := ⟨0x7ff8000000000000⟩

theorem nan_refused : ¬ ∀ (P : Platform) (o : UtcOffset) (v : Value), P.RoundTrips →
    P.localOffset = some o → v.Canonical →
    encode P v ≠ .panic ∧ ∀ j, encode P v = .ok j → ∃ w, decode P false j = .ok w := by
  intro h
  obtain ⟨w, hw⟩ := (h Sample.utcPlatform Sample.utc (.real nan) Sample.utcPlatform_roundTrips rfl
    (by decide)).2 _ rfl
  have herr : decode Sample.utcPlatform false (tagged .real .null) = .err .invalidType := rfl
  exact absurd (herr.symm.trans hw) (by simp)

/-- A nanosecond more than the seconds of an `i64`. -/
def beyond : Duration := ⟨9223372036854775807, 1, by decide, by decide⟩

/-- A timespan that is refused before the date after it is looked at. -/
def refusedFirst : Value :=
  .vector [.timespan beyond, .timestamp ⟨⟨maxDateTime, by decide⟩, ⟨-3600, by decide⟩⟩, .real nan]

theorem refusedFirst_reported :
    encode Sample.utcPlatform refusedFirst ≠ .panic ∧
      ∀ j, encode Sample.utcPlatform refusedFirst = .ok j →
        ∃ w, decode Sample.utcPlatform false j = .ok w := by
  have hspan : ¬ Writable Sample.utcPlatform (.timespan beyond) :=
    show ¬ Timespan.Representable beyond by decide
  have hparts : refusedFirst.parts = [refusedFirst, .timespan beyond,
    .timestamp ⟨⟨maxDateTime, by decide⟩, ⟨-3600, by decide⟩⟩, .real nan] := rfl
  refine (encode_reports_iff Sample.utcPlatform Sample.utcPlatform_roundTrips Sample.utc rfl false
    refusedFirst (by decide)).mpr ⟨?_, ?_⟩
  · rw [hparts, comesTo_cons, comesTo_cons]
    simp [Undated, refusedFirst, hspan]
  · intro hw
    exact absurd (hw _ (by simp [hparts])) hspan

end Value

end ZWS
