import ZeekWebSocket.Sanity.Parts
import ZeekWebSocket.Sanity.Timespan
import ZeekWebSocket.Spec.Wire

/-! What the writer can write. A value has a JSON form exactly if all its timespans and
timestamps have a text, and containers are written element by element. -/

namespace ZWS

open Base

namespace Value

section
variable {P : Platform}

/-- `TableEntry` as an object. -/
def encodeEntry (P : Platform) (e : Value × Value) : Outcome EncodeError Json := do
  let k ← encode P e.1
  let v ← encode P e.2
  pure (.obj [("key", k), ("value", v)])

theorem encodeSeq_eq (xs : List Value) : encodeSeq P xs = xs.mapM (encode P) := by
  induction xs with
  | nil => rfl
  | cons x xs ih =>
    rw [encodeSeq, ih, List.mapM_cons, encode]
    simp only [bind_assoc, pure_bind]

theorem encodeEntries_eq (es : List (Value × Value)) : encodeEntries P es = es.mapM (encodeEntry P) := by
  induction es with
  | nil => rfl
  | cons e es ih =>
    rw [encodeEntries, ih, List.mapM_cons, encodeEntry, encode, encode]
    simp only [bind_assoc, pure_bind]

theorem encodeContent_vector (xs : List Value) :
    encodeContent P (.vector xs) = xs.mapM (encode P) >>= fun js => .ok (.arr js) := by
  rw [encodeContent, encodeSeq_eq]
  rfl

theorem encodeContent_set (xs : List Value) :
    encodeContent P (.set xs) = xs.mapM (encode P) >>= fun js => .ok (.arr js) := by
  rw [encodeContent, encodeSeq_eq]
  rfl

theorem encodeContent_table (es : List (Value × Value)) :
    encodeContent P (.table es) = es.mapM (encodeEntry P) >>= fun js => .ok (.arr js) := by
  rw [encodeContent, encodeEntries_eq]
  rfl

theorem encode_eq_ok {v : Value} {j : Json} :
    encode P v = .ok j ↔ ∃ c, encodeContent P v = .ok c ∧ tagged v.tag c = j := by
  rw [encode, Outcome.bind_eq_ok]
  simp only [Outcome.pure_def, Outcome.ok.injEq]

theorem exists_encode_ok {v : Value} :
    (∃ j, encode P v = .ok j) ↔ ∃ c, encodeContent P v = .ok c := by
  simp only [encode_eq_ok]
  refine ⟨?_, ?_⟩
  · intro h
    obtain ⟨j, c, hc, -⟩ := h
    exact ⟨c, hc⟩
  · intro h
    obtain ⟨c, hc⟩ := h
    exact ⟨_, c, hc, rfl⟩

theorem exists_encodeEntry_ok {e : Value × Value} :
    (∃ j, encodeEntry P e = .ok j) ↔ (∃ j, encode P e.1 = .ok j) ∧ ∃ j, encode P e.2 = .ok j := by
  simp only [encodeEntry, Outcome.bind_eq_ok, Outcome.pure_def, Outcome.ok.injEq]
  refine ⟨?_, ?_⟩
  · intro h
    obtain ⟨j, k, hk, v, hv, -⟩ := h
    exact ⟨⟨k, hk⟩, v, hv⟩
  · intro h
    obtain ⟨⟨k, hk⟩, v, hv⟩ := h
    exact ⟨_, k, hk, v, hv, rfl⟩

/-- A leaf that is written through a fallible text has one: a timespan is whole seconds or fits the
signed nanoseconds, and the date of a timestamp exists at the local offset. -/
def Writable (P : Platform) : Value → Prop
  | .timespan d => Timespan.Representable d
  | .timestamp t => ∃ o t' s, P.localOffset = some o ∧ t.checkedToOffset o = some t' ∧
      P.formatDateTime t'.localTime = some s
  | _ => True

theorem timestamp_serialize_eq_ok {t : OffsetDateTime} {s : String} :
    Timestamp.serialize P t = .ok s ↔ ∃ o t', P.localOffset = some o ∧ t.checkedToOffset o = some t' ∧
      P.formatDateTime t'.localTime = some s := by
  simp only [Timestamp.serialize, Outcome.bind_eq_ok, Outcome.ofOption_eq_ok, OffsetDateTime.toOffset,
    Outcome.expect_eq_ok]
  refine ⟨?_, ?_⟩
  · intro h
    obtain ⟨o, ho, t', ht, hs⟩ := h
    exact ⟨o, t', ho, ht, hs⟩
  · intro h
    obtain ⟨o, t', ho, ht, hs⟩ := h
    exact ⟨o, ho, t', ht, hs⟩

theorem writable_timestamp {t : OffsetDateTime} :
    Writable P (.timestamp t) ↔ ∃ s, Timestamp.serialize P t = .ok s := by
  simp only [Writable, timestamp_serialize_eq_ok]
  refine ⟨?_, ?_⟩
  · intro h
    obtain ⟨o, t', s, h⟩ := h
    exact ⟨s, o, t', h⟩
  · intro h
    obtain ⟨s, o, t', h⟩ := h
    exact ⟨o, t', s, h⟩

theorem writable_vector (P : Platform) (xs : List Value) : Writable P (.vector xs) := trivial

theorem writable_set (P : Platform) (xs : List Value) : Writable P (.set xs) := trivial

theorem writable_table (P : Platform) (es : List (Value × Value)) : Writable P (.table es) := trivial

theorem exists_encodeContent_leaf {v : Value} (h : v.discriminant < 12) :
    (∃ c, encodeContent P v = .ok c) ↔ Writable P v := by
  cases v with
  | timespan d =>
    simp only [encodeContent, Writable, Outcome.bind_eq_ok, Outcome.ofExcept_eq_ok, Outcome.pure_def,
      Outcome.ok.injEq]
    have herr := @Timespan.serialize_eq_error d
    cases hs : Timespan.serialize d with
    | ok s => simpa [hs] using herr
    | error e => simpa [hs] using herr
  | timestamp t =>
    simp only [encodeContent, writable_timestamp, Outcome.bind_eq_ok, Outcome.pure_def, Outcome.ok.injEq]
    refine ⟨?_, ?_⟩
    · intro hc
      obtain ⟨c, s, hs, -⟩ := hc
      exact ⟨s, hs⟩
    · intro hs
      obtain ⟨s, hs⟩ := hs
      exact ⟨_, s, hs, rfl⟩
  | vector xs => simp [discriminant] at h
  | set xs => simp [discriminant] at h
  | table es => simp [discriminant] at h
  | _ => simp [encodeContent, Writable]

/-- A value can be written exactly if everything inside it can. -/
theorem exists_encode_iff {v : Value} :
    (∃ j, encode P v = .ok j) ↔ ∀ w ∈ v.parts, Writable P w := by
  rw [exists_encode_ok]
  induction v using induct with
  | leaf v h => rw [exists_encodeContent_leaf h, parts_leaf h, List.forall_mem_singleton]
  | vector xs ih =>
    rw [encodeContent_vector, forall_parts_vector, Outcome.exists_bind_ok, Outcome.exists_mapM_ok,
      and_iff_right (writable_vector P xs)]
    exact forall₂_congr fun x hx => exists_encode_ok.trans (ih x hx)
  | set xs ih =>
    rw [encodeContent_set, forall_parts_set, Outcome.exists_bind_ok, Outcome.exists_mapM_ok,
      and_iff_right (writable_set P xs)]
    exact forall₂_congr fun x hx => exists_encode_ok.trans (ih x hx)
  | table es ih =>
    rw [encodeContent_table, forall_parts_table, Outcome.exists_bind_ok, Outcome.exists_mapM_ok,
      and_iff_right (writable_table P es)]
    refine forall₂_congr fun e he => exists_encodeEntry_ok.trans ?_
    exact and_congr (exists_encode_ok.trans (ih e he).1) (exists_encode_ok.trans (ih e he).2)

theorem encode_ne_panic {v : Value} (h : encodeContent P v ≠ .panic) : encode P v ≠ .panic := by
  simpa [encode, Outcome.bind_eq_panic] using h

theorem encodeEntry_ne_panic {e : Value × Value} (hk : encode P e.1 ≠ .panic)
    (hv : encode P e.2 ≠ .panic) : encodeEntry P e ≠ .panic := by
  simp [encodeEntry, Outcome.bind_eq_panic, hk, hv]

/-- The writer panics only where the date of a timestamp does not exist at the local offset. -/
theorem encodeContent_ne_panic {v : Value}
    (h : ∀ w ∈ v.parts, ∀ t, w = .timestamp t → Timestamp.serialize P t ≠ .panic) :
    encodeContent P v ≠ .panic := by
  induction v using induct with
  | leaf v hv =>
    rw [parts_leaf hv, List.forall_mem_singleton] at h
    cases v with
    | timespan d => simp [encodeContent, Outcome.bind_eq_panic]
    | timestamp t => simpa [encodeContent, Outcome.bind_eq_panic] using h t rfl
    | vector xs => simp [discriminant] at hv
    | set xs => simp [discriminant] at hv
    | table es => simp [discriminant] at hv
    | _ => simp [encodeContent]
  | vector xs ih =>
    have hxs := (forall_parts_vector.mp h).2
    simpa [encodeContent_vector, Outcome.bind_eq_panic] using
      Outcome.mapM_ne_panic fun x hx => encode_ne_panic (ih x hx (hxs x hx))
  | set xs ih =>
    have hxs := (forall_parts_set.mp h).2
    simpa [encodeContent_set, Outcome.bind_eq_panic] using
      Outcome.mapM_ne_panic fun x hx => encode_ne_panic (ih x hx (hxs x hx))
  | table es ih =>
    have hes := (forall_parts_table.mp h).2
    simpa [encodeContent_table, Outcome.bind_eq_panic] using
      Outcome.mapM_ne_panic fun e he => encodeEntry_ne_panic
        (encode_ne_panic ((ih e he).1 (hes e he).1)) (encode_ne_panic ((ih e he).2 (hes e he).2))

end

end Value

end ZWS
