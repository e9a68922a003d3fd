import ZeekWebSocket.Sanity.Order

/-! What lies inside a value, and what rewriting its timestamps leaves alone. -/

namespace ZWS

open Base

namespace Value

mutual
theorem partsSeq_eq (xs : List Value) : partsSeq xs = xs.flatMap parts := by
  induction xs with
  | nil => rfl
  | cons x xs ih => rw [partsSeq, ih, List.flatMap_cons]

theorem partsEntries_eq (es : List (Value × Value)) :
    partsEntries es = es.flatMap fun e => e.1.parts ++ e.2.parts := by
  induction es with
  | nil => rfl
  | cons e es ih => rw [partsEntries, ih, List.flatMap_cons]
end

mutual
@[simp] theorem forall_parts_vector {P : Value → Prop} {xs : List Value} :
    (∀ w ∈ (vector xs).parts, P w) ↔ P (vector xs) ∧ ∀ x ∈ xs, ∀ w ∈ x.parts, P w := by
  simp only [parts, partsSeq_eq, List.forall_mem_cons, List.forall_mem_flatMap]

@[simp] theorem forall_parts_set {P : Value → Prop} {xs : List Value} :
    (∀ w ∈ (set xs).parts, P w) ↔ P (set xs) ∧ ∀ x ∈ xs, ∀ w ∈ x.parts, P w := by
  simp only [parts, partsSeq_eq, List.forall_mem_cons, List.forall_mem_flatMap]

@[simp] theorem forall_parts_table {P : Value → Prop} {es : List (Value × Value)} :
    (∀ w ∈ (table es).parts, P w) ↔
      P (table es) ∧ ∀ e ∈ es, (∀ w ∈ e.1.parts, P w) ∧ ∀ w ∈ e.2.parts, P w := by
  simp only [parts, partsEntries_eq, List.forall_mem_cons, List.forall_mem_flatMap,
    List.forall_mem_append]
end

theorem parts_leaf {v : Value} (h : v.discriminant < 12) : v.parts = [v] := by
  cases v <;> first | rfl | simp [discriminant] at h

mutual
theorem mapTimesSeq_eq (f : OffsetDateTime → OffsetDateTime) (xs : List Value) :
    mapTimesSeq f xs = xs.map (mapTimes f) := by
  induction xs with
  | nil => rfl
  | cons x xs ih => rw [mapTimesSeq, ih, List.map_cons]

theorem mapTimesEntries_eq (f : OffsetDateTime → OffsetDateTime) (es : List (Value × Value)) :
    mapTimesEntries f es = es.map fun e => (mapTimes f e.1, mapTimes f e.2) := by
  induction es with
  | nil => rfl
  | cons e es ih => rw [mapTimesEntries, ih, List.map_cons]
end

theorem seqCode_map_congr {α : Type} {f : α → List ℤ} {g : α → α} {xs : List α}
    (h : ∀ x ∈ xs, f (g x) = f x) : seqCode f (xs.map g) = seqCode f xs := by
  induction xs with
  | nil => rfl
  | cons x xs ih =>
    rw [List.map_cons, seqCode, seqCode, h x (by simp), ih fun y hy => h y (by simp [hy])]

/-- Moving timestamps to other clocks is invisible to comparison. -/
theorem code_mapTimes {f : OffsetDateTime → OffsetDateTime} (hf : ∀ t, (f t).unixNanos = t.unixNanos)
    (v : Value) : (mapTimes f v).code = v.code := by
  induction v using induct with
  | leaf v hv =>
    cases v <;> first
      | rfl
      | (simp [discriminant] at hv; done)
      | simp only [mapTimes, code, hf]
  | vector xs ih => simp only [mapTimes, mapTimesSeq_eq, code, codeSeq_eq, seqCode_map_congr ih]
  | set xs ih => simp only [mapTimes, mapTimesSeq_eq, code, codeSeq_eq, seqCode_map_congr ih]
  | table es ih =>
    simp only [mapTimes, mapTimesEntries_eq, code, codeEntries_eq]
    rw [seqCode_map_congr]
    intro e he
    simp only [entryCode, (ih e he).1, (ih e he).2]

/-- Rewriting that changes none of the timestamps in a value changes nothing. -/
theorem mapTimes_eq_self {f : OffsetDateTime → OffsetDateTime} {v : Value}
    (h : ∀ w ∈ v.parts, ∀ t, w = .timestamp t → f t = t) : mapTimes f v = v := by
  induction v using induct with
  | leaf v hv =>
    rw [parts_leaf hv, List.forall_mem_singleton] at h
    cases v with
    | timestamp t => rw [mapTimes, h t rfl]
    | vector xs => simp [discriminant] at hv
    | set xs => simp [discriminant] at hv
    | table es => simp [discriminant] at hv
    | _ => rfl
  | vector xs ih =>
    have hxs := (forall_parts_vector.mp h).2
    rw [mapTimes, mapTimesSeq_eq, List.map_congr_left fun x hx => ih x hx (hxs x hx), List.map_id']
  | set xs ih =>
    have hxs := (forall_parts_set.mp h).2
    rw [mapTimes, mapTimesSeq_eq, List.map_congr_left fun x hx => ih x hx (hxs x hx), List.map_id']
  | table es ih =>
    have hes := (forall_parts_table.mp h).2
    have hsame : ∀ e ∈ es, (mapTimes f e.1, mapTimes f e.2) = e := fun e he =>
      Prod.ext ((ih e he).1 (hes e he).1) ((ih e he).2 (hes e he).2)
    rw [mapTimes, mapTimesEntries_eq, List.map_congr_left hsame, List.map_id']

theorem mapTimes_equal {f : OffsetDateTime → OffsetDateTime}
    (hf : ∀ t, (f t).unixNanos = t.unixNanos) (v : Value) : Equal (mapTimes f v) v :=
  equal_iff.mpr (code_mapTimes hf v)

theorem unixNanos_getD (o : UtcOffset) (t : OffsetDateTime) :
    ((t.checkedToOffset o).getD t).unixNanos = t.unixNanos := by
  cases h : t.checkedToOffset o with
  | none => rfl
  | some t' => exact (OffsetDateTime.unixNanos_of_checkedToOffset h).1

/-- Reading the timestamps of a value at another offset gives an equal value. -/
theorem atOffset_equal (o : UtcOffset) (v : Value) : Equal (v.atOffset o) v :=
  mapTimes_equal (unixNanos_getD o) v

theorem parts_mapTimes (f : OffsetDateTime → OffsetDateTime) (v : Value) :
    (mapTimes f v).parts = v.parts.map (mapTimes f) := by
  induction v using induct with
  | leaf v hv => cases v <;> first | rfl | simp [discriminant] at hv
  | vector xs ih =>
    simp only [mapTimes, mapTimesSeq_eq, parts, partsSeq_eq, List.map_cons, List.map_flatMap,
      List.flatMap_map, List.cons.injEq, true_and]
    exact List.flatMap_congr ih
  | set xs ih =>
    simp only [mapTimes, mapTimesSeq_eq, parts, partsSeq_eq, List.map_cons, List.map_flatMap,
      List.flatMap_map, List.cons.injEq, true_and]
    exact List.flatMap_congr ih
  | table es ih =>
    simp only [mapTimes, mapTimesEntries_eq, parts, partsEntries_eq, List.map_cons, List.map_flatMap,
      List.flatMap_map, List.map_append, List.cons.injEq, true_and]
    exact List.flatMap_congr fun e he => by rw [(ih e he).1, (ih e he).2]

theorem cmp_mapTimes {f : OffsetDateTime → OffsetDateTime}
    (hf : ∀ t, (f t).unixNanos = t.unixNanos) (v w : Value) :
    cmp (mapTimes f v) (mapTimes f w) = cmp v w :=
  cmp_congr (mapTimes_equal hf v) (mapTimes_equal hf w)

theorem ascending_mapTimes {f : OffsetDateTime → OffsetDateTime}
    (hf : ∀ t, (f t).unixNanos = t.unixNanos) {xs : List Value}
    (h : Ascending cmp xs) : Ascending cmp (xs.map (mapTimes f)) :=
  List.pairwise_map.mpr (h.imp fun hab => by rwa [cmp_mapTimes hf])

theorem ascending_mapTimes_entries {f : OffsetDateTime → OffsetDateTime}
    (hf : ∀ t, (f t).unixNanos = t.unixNanos) {es : List (Value × Value)}
    (h : Ascending (byKey cmp) es) :
    Ascending (byKey cmp) (es.map fun e => (mapTimes f e.1, mapTimes f e.2)) :=
  List.pairwise_map.mpr (h.imp fun hab => by simpa only [byKey, cmp_mapTimes hf] using hab)

theorem ascending_atOffset {o : UtcOffset} {xs : List Value} (h : Ascending cmp xs) :
    Ascending cmp (xs.map (atOffset o)) :=
  ascending_mapTimes (unixNanos_getD o) h

theorem ascending_atOffset_entries {o : UtcOffset} {es : List (Value × Value)}
    (h : Ascending (byKey cmp) es) :
    Ascending (byKey cmp) (es.map fun e => (e.1.atOffset o, e.2.atOffset o)) :=
  ascending_mapTimes_entries (unixNanos_getD o) h

end Value

end ZWS
