import ZeekWebSocket.Sanity.Parts
import ZeekWebSocket.Sanity.Equal
import ZeekWebSocket.Spec.Python

/-! The values of the Python bindings are ordered by codes as well, and both conversions
respect `==`. -/

namespace ZWS

open Base

namespace Python.Value

open ZWS.Value (textCode addressCode codeAt_text codeAt_address)

mutual
/-- The variant, then the payload. -/
def code : Value → List ℤ
  | .boolean b => [0, b.toNat]
  | .count n => [1, n.toNat]
  | .integer n => [2, n.toInt]
  | .real x => [3, x.orderKey]
  | .timespan d => [4, d.seconds.toInt, d.nanoseconds]
  | .timestamp t => [5, t.unixNanos]
  | .address a => 6 :: addressCode a
  | .subnet a m => 7 :: (addressCode a ++ [(m.toNat : ℤ)])
  | .port n p => [8, n.toNat, p.discriminant]
  | .vector xs => 9 :: codeSeq xs
  | .set xs => 10 :: codeSeq xs
  | .table es => 11 :: codeEntries es
  | .record fs => 12 :: codeFields fs
  | .string s => 13 :: textCode s
  | .enum s => 14 :: textCode s
  | .none => [15]
def codeSeq : List Value → List ℤ
  | [] => [0]
  | x :: xs => 1 :: (code x ++ codeSeq xs)
def codeEntries : List (Value × Value) → List ℤ
  | [] => [0]
  | (k, v) :: es => 1 :: (code k ++ code v ++ codeEntries es)
def codeFields : List (String × Value) → List ℤ
  | [] => [0]
  | (k, v) :: fs => 1 :: (textCode k ++ code v ++ codeFields fs)
end

def entryCode (e : Value × Value) : List ℤ := e.1.code ++ e.2.code

def fieldCode (f : String × Value) : List ℤ := textCode f.1 ++ f.2.code

def cmpEntry (e f : Value × Value) : Ordering := (cmp e.1 f.1).then (cmp e.2 f.2)

def cmpField (f g : String × Value) : Ordering := (compareStr f.1 g.1).then (cmp f.2 g.2)

mutual
theorem codeSeq_eq (xs : List Value) : codeSeq xs = seqCode code xs := by
  induction xs with
  | nil => rfl
  | cons x xs ih => rw [codeSeq, seqCode, ih]

theorem codeEntries_eq (es : List (Value × Value)) : codeEntries es = seqCode entryCode es := by
  induction es with
  | nil => rfl
  | cons e es ih => rw [codeEntries, seqCode, ih, entryCode]

theorem codeFields_eq (fs : List (String × Value)) : codeFields fs = seqCode fieldCode fs := by
  induction fs with
  | nil => rfl
  | cons f fs ih => rw [codeFields, seqCode, ih, fieldCode]
end

mutual
theorem cmpSeq_eq (xs ys : List Value) : cmpSeq xs ys = List.compareLex cmp xs ys := by
  induction xs generalizing ys with
  | nil => cases ys <;> simp [cmpSeq, List.compareLex_nil_nil, List.compareLex_nil_cons]
  | cons x xs ih =>
    cases ys with
    | nil => simp [cmpSeq, List.compareLex_cons_nil]
    | cons y ys => rw [cmpSeq, List.compareLex_cons_cons, ih]

theorem cmpEntries_eq (es fs : List (Value × Value)) :
    cmpEntries es fs = List.compareLex cmpEntry es fs := by
  induction es generalizing fs with
  | nil => cases fs <;> simp [cmpEntries, List.compareLex_nil_nil, List.compareLex_nil_cons]
  | cons e es ih =>
    cases fs with
    | nil => simp [cmpEntries, List.compareLex_cons_nil]
    | cons f fs => rw [cmpEntries, List.compareLex_cons_cons, ih, cmpEntry]

theorem cmpFields_eq (fs gs : List (String × Value)) :
    cmpFields fs gs = List.compareLex cmpField fs gs := by
  induction fs generalizing gs with
  | nil => cases gs <;> simp [cmpFields, List.compareLex_nil_nil, List.compareLex_nil_cons]
  | cons f fs ih =>
    cases gs with
    | nil => simp [cmpFields, List.compareLex_cons_nil]
    | cons g gs => rw [cmpFields, List.compareLex_cons_cons, ih, cmpField]
end

theorem codeAt_variants {v w : Value} (h : v.discriminant ≠ w.discriminant) (s t : List ℤ) :
    compare (v.code ++ s) (w.code ++ t) =
      (compare v.discriminant w.discriminant).then (compare s t) := by
  have hhead : ∀ v : Value, ∃ tl, v.code = (v.discriminant : ℤ) :: tl := by
    intro v
    cases v <;> exact ⟨_, rfl⟩
  obtain ⟨tv, hv⟩ := hhead v
  obtain ⟨tw, hw⟩ := hhead w
  rw [hv, hw, compare_heads h]

theorem cmp_variants {v w : Value} (h : v.discriminant ≠ w.discriminant) :
    cmp v w = compare v.discriminant w.discriminant := by
  cases v <;> cases w <;> first | rfl | exact absurd rfl h

theorem codeAt (v : Value) : CodeAt cmp code v := by
  induction v using induct with
  | leaf v hv =>
    intro w s t
    by_cases hd : v.discriminant = w.discriminant
    · cases v <;> cases w <;> first
        | (simp [discriminant] at hd; done)
        | exact hv.elim
        | simp [code, cmp, compare_natCast, Ordering.then_assoc, Duration.cmp,
            codeAt_text _ _ s t, codeAt_address _ _ _ _]
    · rw [cmp_variants hd, codeAt_variants hd]
  | vector xs ih =>
    intro w s t
    by_cases hd : (vector xs).discriminant = w.discriminant
    · cases w with
      | vector ys =>
        simp only [code, codeSeq_eq, cmp, cmpSeq_eq, List.cons_append, compare_cons]
        exact CodeAt.seq ih ys s t
      | _ => simp [discriminant] at hd
    · rw [cmp_variants hd, codeAt_variants hd]
  | set xs ih =>
    intro w s t
    by_cases hd : (set xs).discriminant = w.discriminant
    · cases w with
      | set ys =>
        simp only [code, codeSeq_eq, cmp, cmpSeq_eq, List.cons_append, compare_cons]
        exact CodeAt.seq ih ys s t
      | _ => simp [discriminant] at hd
    · rw [cmp_variants hd, codeAt_variants hd]
  | table es ih =>
    intro w s t
    by_cases hd : (table es).discriminant = w.discriminant
    · cases w with
      | table fs =>
        simp only [code, codeEntries_eq, cmp, cmpEntries_eq, List.cons_append, compare_cons]
        refine CodeAt.seq (fun e he f s t => ?_) fs s t
        simp only [entryCode, cmpEntry, List.append_assoc, (ih e he).1 f.1, (ih e he).2 f.2,
          Ordering.then_assoc]
      | _ => simp [discriminant] at hd
    · rw [cmp_variants hd, codeAt_variants hd]
  | record fs ih =>
    intro w s t
    by_cases hd : (record fs).discriminant = w.discriminant
    · cases w with
      | record gs =>
        simp only [code, codeFields_eq, cmp, cmpFields_eq, List.cons_append, compare_cons]
        refine CodeAt.seq (fun f hf g s t => ?_) gs s t
        simp only [fieldCode, cmpField, List.append_assoc, codeAt_text f.1 g.1, ih f hf g.2,
          Ordering.then_assoc]
      | _ => simp [discriminant] at hd
    · rw [cmp_variants hd, codeAt_variants hd]

theorem cmp_eq_compare (v w : Value) : cmp v w = compare v.code w.code := (codeAt v).eq_compare w

instance : Std.TransCmp cmp := transCmp_of_code cmp_eq_compare

theorem equal_iff {v w : Value} : Equal v w ↔ v.code = w.code := by
  rw [Equal, cmp_eq_compare, Std.LawfulEqCmp.compare_eq_iff_eq]

@[simp] theorem Equal.refl (v : Value) : Equal v v := equal_iff.mpr rfl

theorem Equal.symm {v w : Value} (h : Equal v w) : Equal w v := equal_iff.mpr (equal_iff.mp h).symm

theorem cmp_congr {v v' w w' : Value} (hv : Equal v v') (hw : Equal w w') :
    cmp v w = cmp v' w' := by
  rw [cmp_eq_compare, cmp_eq_compare, equal_iff.mp hv, equal_iff.mp hw]

theorem Equal.discriminant {v w : Value} (h : Equal v w) : v.discriminant = w.discriminant := by
  by_contra hne
  rw [Equal, cmp_variants hne, Nat.compare_eq_eq] at h
  exact hne h

/-- Values of one variant are equal if what they hold is. -/
theorem equal_variant {α : Type} {C : α → Value} {R : α → α → Prop}
    (hC : ∀ a w, (C a).discriminant = w.discriminant → ∃ b, w = C b)
    (hR : ∀ a b, cmp (C a) (C b) = .eq ↔ R a b) (a : α) (w : Value) :
    Equal (C a) w ↔ ∃ b, w = C b ∧ R a b := by
  refine ⟨?_, ?_⟩
  · intro h
    obtain ⟨b, rfl⟩ := hC a w h.discriminant
    exact ⟨b, rfl, (hR a b).mp h⟩
  · intro h
    obtain ⟨b, rfl, hab⟩ := h
    exact (hR a b).mpr hab

theorem equal_vector {xs : List Value} {w : Value} :
    Equal (.vector xs) w ↔ ∃ ys, w = .vector ys ∧ List.Forall₂ Equal xs ys :=
  equal_variant (by intro xs w; cases w <;> simp [discriminant])
    (fun xs ys => by rw [cmp, cmpSeq_eq, compareLex_eq_eq]; rfl) xs w

theorem equal_set {xs : List Value} {w : Value} :
    Equal (.set xs) w ↔ ∃ ys, w = .set ys ∧ List.Forall₂ Equal xs ys :=
  equal_variant (by intro xs w; cases w <;> simp [discriminant])
    (fun xs ys => by rw [cmp, cmpSeq_eq, compareLex_eq_eq]; rfl) xs w

theorem equal_table {es : List (Value × Value)} {w : Value} :
    Equal (.table es) w ↔
      ∃ fs, w = .table fs ∧ List.Forall₂ (fun e f => Equal e.1 f.1 ∧ Equal e.2 f.2) es fs :=
  equal_variant (by intro es w; cases w <;> simp [discriminant])
    (fun es fs => by
      simp only [Equal, cmp, cmpEntries_eq, compareLex_eq_eq, cmpEntry, Ordering.then_eq_eq]) es w

theorem equal_record {fs : List (String × Value)} {w : Value} :
    Equal (.record fs) w ↔
      ∃ gs, w = .record gs ∧ List.Forall₂ (fun f g => f.1 = g.1 ∧ Equal f.2 g.2) fs gs :=
  equal_variant (by intro fs w; cases w <;> simp [discriminant])
    (fun fs gs => by
      simp only [Equal, cmp, cmpFields_eq, compareLex_eq_eq, cmpField, Ordering.then_eq_eq,
        compareStr_eq_eq]) fs w

/-- Equal values are of one variant. -/
theorem Equal.of_variant {α : Type} {C : α → Value} {R : α → α → Prop} {v w : Value}
    (h : Equal v w) (hC : ∀ a w, Equal (C a) w ↔ ∃ b, w = C b ∧ R a b) :
    (∃ b, w = C b) → ∃ a, v = C a := by
  rintro ⟨b, rfl⟩
  obtain ⟨a, rfl, -⟩ := (hC b v).mp h.symm
  exact ⟨a, rfl⟩

mutual
theorem partsSeq_eq (xs : List Value) : partsSeq xs = xs.flatMap parts := by
  induction xs with
  | nil => rfl
  | cons x xs ih => rw [partsSeq, ih, List.flatMap_cons]

theorem partsEntries_eq (es : List (Value × Value)) :
    partsEntries es = es.flatMap fun e => e.1.parts ++ e.2.parts := by
  induction es with
  | nil => rfl
  | cons e es ih => rw [partsEntries, ih, List.flatMap_cons]

theorem partsFields_eq (fs : List (String × Value)) :
    partsFields fs = fs.flatMap fun f => f.2.parts := by
  induction fs with
  | nil => rfl
  | cons f fs ih => rw [partsFields, ih, List.flatMap_cons]
end

mutual
@[simp] theorem forall_parts_vector {P : Value → Prop} {xs : List Value} :
    (∀ w ∈ (vector xs).parts, P w) ↔ P (vector xs) ∧ ∀ x ∈ xs, ∀ w ∈ x.parts, P w := by
  simp only [parts, partsSeq_eq, List.forall_mem_cons, List.forall_mem_flatMap]

@[simp] theorem forall_parts_set {P : Value → Prop} {xs : List Value} :
    (∀ w ∈ (set xs).parts, P w) ↔ P (set xs) ∧ ∀ x ∈ xs, ∀ w ∈ x.parts, P w := by
  simp only [parts, partsSeq_eq, List.forall_mem_cons, List.forall_mem_flatMap]

@[simp] theorem forall_parts_table {P : Value → Prop} {es : List (Value × Value)} :
    (∀ w ∈ (table es).parts, P w) ↔
      P (table es) ∧ ∀ e ∈ es, (∀ w ∈ e.1.parts, P w) ∧ ∀ w ∈ e.2.parts, P w := by
  simp only [parts, partsEntries_eq, List.forall_mem_cons, List.forall_mem_flatMap,
    List.forall_mem_append]

@[simp] theorem forall_parts_record {P : Value → Prop} {fs : List (String × Value)} :
    (∀ w ∈ (record fs).parts, P w) ↔ P (record fs) ∧ ∀ f ∈ fs, ∀ w ∈ f.2.parts, P w := by
  simp only [parts, partsFields_eq, List.forall_mem_cons, List.forall_mem_flatMap]
end

theorem parts_leaf {v : Value} (h : v.IsLeaf) : v.parts = [v] := by
  cases v <;> first | rfl | exact h.elim

/-! The conversions go through the elements of a container one after the other. -/

def toRustEntry (e : Value × Value) : Outcome IpNetworkError (ZWS.Value × ZWS.Value) := do
  let k ← toRust e.1
  let v ← toRust e.2
  pure (k, v)

mutual
theorem toRustSeq_eq (xs : List Value) : toRustSeq xs = xs.mapM toRust := by
  induction xs with
  | nil => rfl
  | cons x xs ih => rw [toRustSeq, ih, List.mapM_cons]

theorem toRustEntries_eq (es : List (Value × Value)) : toRustEntries es = es.mapM toRustEntry := by
  induction es with
  | nil => rfl
  | cons e es ih => simp [toRustEntries, ih, List.mapM_cons, toRustEntry]

theorem toRustFields_eq (fs : List (String × Value)) :
    toRustFields fs = (fs.map Prod.snd).mapM toRust := by
  induction fs with
  | nil => rfl
  | cons f fs ih => rw [toRustFields, ih, List.map_cons, List.mapM_cons]
end

mutual
theorem toRust_vector (xs : List Value) :
    toRust (.vector xs) = xs.mapM toRust >>= fun vs => .ok (.vector vs) := by
  rw [toRust, toRustSeq_eq]
  rfl

theorem toRust_set (xs : List Value) :
    toRust (.set xs) =
      xs.mapM toRust >>= fun vs => .ok (.set (collectBy ZWS.Value.cmp keepNew vs)) := by
  rw [toRust, toRustSeq_eq]
  rfl

theorem toRust_table (es : List (Value × Value)) :
    toRust (.table es) =
      es.mapM toRustEntry >>= fun es => .ok (.table (collectBy (byKey ZWS.Value.cmp) keepNew es)) := by
  rw [toRust, toRustEntries_eq]
  rfl

theorem toRust_record (fs : List (String × Value)) :
    toRust (.record fs) = toRust (.vector (fs.map Prod.snd)) := by
  rw [toRust_vector, toRust, toRustFields_eq]
  rfl
end

theorem toRustEntry_eq_ok {e : Value × Value} {f : ZWS.Value × ZWS.Value} :
    toRustEntry e = .ok f ↔ toRust e.1 = .ok f.1 ∧ toRust e.2 = .ok f.2 :=
  Outcome.pair_eq_ok

mutual
theorem ofRustSeq_eq (xs : List ZWS.Value) : ofRustSeq xs = xs.map ofRust := by
  induction xs with
  | nil => rfl
  | cons x xs ih => rw [ofRustSeq, ih, List.map_cons]

theorem ofRustEntries_eq (es : List (ZWS.Value × ZWS.Value)) :
    ofRustEntries es = es.map fun e => (ofRust e.1, ofRust e.2) := by
  induction es with
  | nil => rfl
  | cons e es ih => rw [ofRustEntries, ih, List.map_cons]
end

end Python.Value

end ZWS
