import ZeekWebSocket.Sanity.Message
import ZeekWebSocket.Sanity.Writer
import ZeekWebSocket.Spec.Node

/-! Rewriting timestamps to others of the same instants, which is what the Node bindings do to
a value, and the conversions of the bindings one container at a time. -/

namespace ZWS

open Base

namespace Value

section
variable {f : OffsetDateTime → OffsetDateTime}

theorem tag_mapTimes (f : OffsetDateTime → OffsetDateTime) (v : Value) : (mapTimes f v).tag = v.tag := by
  cases v <;> rfl

theorem serialize_congr {P : Platform} {t t' : OffsetDateTime} (h : t'.unixNanos = t.unixNanos) :
    Timestamp.serialize P t' = Timestamp.serialize P t := by
  simp only [Timestamp.serialize, OffsetDateTime.toOffset, OffsetDateTime.checkedToOffset, h]

/-- The wire knows instants alone. -/
theorem encodeContent_mapTimes {P : Platform} (hf : ∀ t, (f t).unixNanos = t.unixNanos) (v : Value) :
    encodeContent P (mapTimes f v) = encodeContent P v := by
  have hencode : ∀ x, encodeContent P (mapTimes f x) = encodeContent P x →
      encode P (mapTimes f x) = encode P x := fun x hx => by rw [encode, encode, hx, tag_mapTimes]
  have hseq : ∀ xs : List Value, (∀ x ∈ xs, encodeContent P (mapTimes f x) = encodeContent P x) →
      (xs.map (mapTimes f)).mapM (encode P) = xs.mapM (encode P) := fun xs ih => by
    rw [List.mapM_map]
    exact Outcome.mapM_congr fun x hx => hencode x (ih x hx)
  induction v using induct with
  | leaf v hv =>
    cases v with
    | timestamp t => simp only [mapTimes, encodeContent, serialize_congr (hf t)]
    | vector xs => simp [discriminant] at hv
    | set xs => simp [discriminant] at hv
    | table es => simp [discriminant] at hv
    | _ => rfl
  | vector xs ih => rw [mapTimes, mapTimesSeq_eq, encodeContent_vector, encodeContent_vector, hseq xs ih]
  | set xs ih => rw [mapTimes, mapTimesSeq_eq, encodeContent_set, encodeContent_set, hseq xs ih]
  | table es ih =>
    rw [mapTimes, mapTimesEntries_eq, encodeContent_table, encodeContent_table, List.mapM_map]
    congr 1
    refine Outcome.mapM_congr fun e he => ?_
    simp only [Function.comp, encodeEntry, hencode _ (ih e he).1, hencode _ (ih e he).2]

end

end Value

namespace Node.Value

variable {P : Platform}

def toZeekEntry (P : Platform) (e : Value × Value) : Outcome Error (ZWS.Value × ZWS.Value) := do
  let k ← toZeek P e.1
  let v ← toZeek P e.2
  pure (k, v)

def ofZeekEntry (P : Platform) (e : ZWS.Value × ZWS.Value) : Outcome Error (Value × Value) := do
  let k ← ofZeek P e.1
  let v ← ofZeek P e.2
  pure (k, v)

theorem toZeekSeq_eq (xs : List Value) : toZeekSeq P xs = xs.mapM (toZeek P) := by
  induction xs with
  | nil => rfl
  | cons x xs ih => rw [toZeekSeq, ih, List.mapM_cons]

theorem toZeekEntries_eq (es : List (Value × Value)) :
    toZeekEntries P es = es.mapM (toZeekEntry P) := by
  induction es with
  | nil => rfl
  | cons e es ih => simp [toZeekEntries, ih, List.mapM_cons, toZeekEntry]

theorem ofZeekSeq_eq (xs : List ZWS.Value) : ofZeekSeq P xs = xs.mapM (ofZeek P) := by
  induction xs with
  | nil => rfl
  | cons x xs ih => rw [ofZeekSeq, ih, List.mapM_cons]

theorem ofZeekEntries_eq (es : List (ZWS.Value × ZWS.Value)) :
    ofZeekEntries P es = es.mapM (ofZeekEntry P) := by
  induction es with
  | nil => rfl
  | cons e es ih => simp [ofZeekEntries, ih, List.mapM_cons, ofZeekEntry]

theorem toZeek_vector (xs : List Value) :
    toZeek P (.vector xs) = xs.mapM (toZeek P) >>= fun vs => .ok (.vector vs) := by
  rw [toZeek, toZeekSeq_eq]
  rfl

theorem toZeek_set (xs : List Value) :
    toZeek P (.set xs) =
      xs.mapM (toZeek P) >>= fun vs => .ok (.set (collectBy ZWS.Value.cmp keepNew vs)) := by
  rw [toZeek, toZeekSeq_eq]
  rfl

theorem toZeek_table (es : List (Value × Value)) :
    toZeek P (.table es) = es.mapM (toZeekEntry P) >>= fun es =>
      .ok (.table (collectBy (byKey ZWS.Value.cmp) keepNew es)) := by
  rw [toZeek, toZeekEntries_eq]
  rfl

theorem ofZeek_vector (xs : List ZWS.Value) :
    ofZeek P (.vector xs) = xs.mapM (ofZeek P) >>= fun vs => .ok (.vector vs) := by
  rw [ofZeek, ofZeekSeq_eq]
  rfl

theorem ofZeek_set (xs : List ZWS.Value) :
    ofZeek P (.set xs) = xs.mapM (ofZeek P) >>= fun vs => .ok (.set vs) := by
  rw [ofZeek, ofZeekSeq_eq]
  rfl

theorem ofZeek_table (es : List (ZWS.Value × ZWS.Value)) :
    ofZeek P (.table es) = es.mapM (ofZeekEntry P) >>= fun es => .ok (.table es) := by
  rw [ofZeek, ofZeekEntries_eq]
  rfl

end Node.Value

end ZWS
