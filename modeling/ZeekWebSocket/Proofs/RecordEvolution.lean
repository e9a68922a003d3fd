import ZeekWebSocket.Spec.Derive

/-! Derived conversions decode a struct from its elements field by field. Surplus elements are
dropped and missing ones read as `None`, which only optional fields accept. -/

namespace ZWS

open Base

namespace Impl

variable {α β : Type} {i : Impl α β} {v : Value} {a : α}

/-- A scalar is decoded from the value that it is encoded as, and from no other. -/
theorem tryFrom_eq_ok : i.tryFrom v = .ok a ↔ i.toValue a = v := by
  simp only [tryFrom, toValue, Outcome.bind_eq_ok, Outcome.ofOption_eq_ok, i.narrow_eq_some,
    i.variant.get_eq_some]
  refine ⟨?_, ?_⟩
  · rintro ⟨x, rfl, rfl⟩
    rfl
  · intro h
    exact ⟨_, h, rfl⟩

theorem exists_tryFrom_ok :
    (∃ a, i.tryFrom v = .ok a) ↔ ∃ x, v = i.variant.make x ∧ (i.narrow x).isSome := by
  simp only [tryFrom, Outcome.bind_eq_ok, Outcome.ofOption_eq_ok, Option.isSome_iff_exists,
    i.variant.get_eq_some, eq_comm (a := v)]
  refine ⟨?_, ?_⟩
  · rintro ⟨a, x, hx, ha⟩
    exact ⟨x, hx, a, ha⟩
  · rintro ⟨x, hx, a, ha⟩
    exact ⟨a, x, hx, ha⟩

theorem tryFrom_ne_panic : i.tryFrom v ≠ .panic := by
  simp [tryFrom, Outcome.bind_eq_panic]

end Impl

theorem Scalar.toValue_ne_none {s : Scalar} {a : s.Carrier} : s.impl.toValue a ≠ .none := by
  cases s <;> exact Value.noConfusion

theorem Ty.toValue_ne_none : ∀ {ty : Ty} {a : ty.Carrier}, ty.toValue a ≠ .none
  | .scalar _, _ => Scalar.toValue_ne_none
  | .record _, _ => Value.noConfusion

/-- Neither a scalar nor a struct is decoded from `None`. -/
theorem Ty.tryFrom_none_ne_ok : ∀ {ty : Ty} {a : ty.Carrier}, ty.tryFrom .none ≠ .ok a
  | .scalar _, _ => fun h => Scalar.toValue_ne_none (Impl.tryFrom_eq_ok.mp h)
  | .record _, _ => fun h => nomatch h

theorem Value.getVector_eq_some {v : Value} {xs : List Value} :
    v.getVector = some xs ↔ v = .vector xs := by
  cases v <;> simp [getVector]

namespace Fields

def length : Fields → ℕ
  | .nil => 0
  | .required _ rest => rest.length + 1
  | .optional _ rest => rest.length + 1

/-- Which of the fields are optional. -/
def optionals : Fields → List Bool
  | .nil => []
  | .required _ rest => false :: rest.optionals
  | .optional _ rest => true :: rest.optionals

/-- `n` elements: surplus ones are dropped and missing ones are `None`. -/
def fit (n : ℕ) (xs : List Value) : List Value := (xs ++ List.replicate n Value.none).take n

/-- An optional field is empty for `None` and decodes anything else. -/
def Decodes (ty : Ty) (v : Value) (x : Option ty.Carrier) : Prop :=
  v = .none ∧ x = none ∨ v ≠ .none ∧ ∃ a, ty.tryFrom v = .ok a ∧ x = some a

/-- There is one element for each field, and each field is decoded from its own. -/
def Fieldwise : (fields : Fields) → List Value → fields.Carrier → Prop
  | .nil, vs, _ => vs = []
  | .required ty rest, vs, r =>
    ∃ v vs', vs = v :: vs' ∧ ty.tryFrom v = .ok r.1 ∧ rest.Fieldwise vs' r.2
  | .optional ty rest, vs, r =>
    ∃ v vs', vs = v :: vs' ∧ Decodes ty v r.1 ∧ rest.Fieldwise vs' r.2

theorem fit_succ (n : ℕ) (xs : List Value) : fit (n + 1) xs = (next xs).1 :: fit n (next xs).2 := by
  cases xs with
  | nil => simp [fit, next, List.replicate_succ]
  | cons x xs =>
    have hlen : n ≤ (xs ++ List.replicate n Value.none).length := by simp
    simp only [fit, next, List.cons_append, List.take_succ_cons, List.replicate_succ', ← List.append_assoc,
      List.take_append_of_le_length hlen]

theorem tryInit_required {ty : Ty} {rest : Fields} {xs : List Value} {r : (required ty rest).Carrier} :
    (required ty rest).tryInit xs = .ok r ↔
      ty.tryFrom (next xs).1 = .ok r.1 ∧ rest.tryInit (next xs).2 = .ok r.2 :=
  Outcome.pair_eq_ok

theorem tryOptional_eq_ok {ty : Ty} {v : Value} {x : Option ty.Carrier} :
    tryOptional ty.tryFrom v = .ok x ↔ Decodes ty v x := by
  by_cases h : v = .none
  · subst h
    simp [tryOptional, Decodes, eq_comm]
  · rw [tryOptional]
    · simp [Decodes, h, Outcome.bind_eq_ok, eq_comm (a := some _)]
    · exact h

theorem tryOptional_ne_panic {α : Type} {tryFrom : Value → Outcome ConversionError α} {v : Value}
    (h : ∀ v, tryFrom v ≠ .panic) : tryOptional tryFrom v ≠ .panic := by
  cases v <;> simp [tryOptional, Outcome.bind_eq_panic, h]

theorem tryInit_optional {ty : Ty} {rest : Fields} {xs : List Value} {r : (optional ty rest).Carrier} :
    (optional ty rest).tryInit xs = .ok r ↔
      Decodes ty (next xs).1 r.1 ∧ rest.tryInit (next xs).2 = .ok r.2 := by
  rw [← tryOptional_eq_ok]
  exact Outcome.pair_eq_ok

/-- The shared iterator hands every field the element at its own place. -/
theorem tryInit_eq_ok : ∀ {fields : Fields} {xs : List Value} {r : fields.Carrier},
    fields.tryInit xs = .ok r ↔ fields.Fieldwise (fit fields.length xs) r
  | .nil, xs, r => iff_of_true rfl (by simp [Fieldwise, fit, length])
  | .required ty rest, xs, r => by
    rw [tryInit_required, tryInit_eq_ok, length, fit_succ, Fieldwise]
    simp
  | .optional ty rest, xs, r => by
    rw [tryInit_optional, tryInit_eq_ok, length, fit_succ, Fieldwise]
    simp

/-- Elements past the last field are never looked at. -/
theorem tryInit_append : ∀ {fields : Fields} {xs : List Value} (ys : List Value),
    fields.length ≤ xs.length → fields.tryInit (xs ++ ys) = fields.tryInit xs
  | .nil, _, _, _ => rfl
  | .required ty rest, [], _, h => by simp [length] at h
  | .optional ty rest, [], _, h => by simp [length] at h
  | .required ty rest, x :: xs, ys, h => by
    have hrest : rest.length ≤ xs.length := by simpa [length] using h
    simp only [List.cons_append, tryInit, next, tryInit_append ys hrest]
  | .optional ty rest, x :: xs, ys, h => by
    have hrest : rest.length ≤ xs.length := by simpa [length] using h
    simp only [List.cons_append, tryInit, next, tryInit_append ys hrest]

/-- Nothing at all is enough if every field is optional. -/
theorem tryInit_nil : ∀ {fields : Fields},
    (∃ r, fields.tryInit [] = .ok r) ↔ ∀ b ∈ fields.optionals, b = true
  | .nil => iff_of_true ⟨(), rfl⟩ (by simp [optionals])
  | .required ty rest => by
    simp [tryInit_required, next, Ty.tryFrom_none_ne_ok, optionals]
  | .optional ty rest => by
    simp only [tryInit_optional, next, optionals, List.forall_mem_cons, true_and, ← tryInit_nil]
    refine ⟨?_, ?_⟩
    · rintro ⟨r, -, hr⟩
      exact ⟨r.2, hr⟩
    · rintro ⟨r, hr⟩
      exact ⟨(none, r), Or.inl ⟨rfl, rfl⟩, hr⟩

/-- Of what is decoded, trailing elements can be left out if their fields are optional. -/
theorem tryInit_take : ∀ {fields : Fields} {xs : List Value} {r : fields.Carrier} (k : ℕ),
    fields.tryInit xs = .ok r →
    ((∃ r, fields.tryInit (xs.take k) = .ok r) ↔ ∀ b ∈ fields.optionals.drop k, b = true)
  | fields, xs, r, 0, _ => by rw [List.take_zero, List.drop_zero, tryInit_nil]
  | .nil, xs, r, k + 1, _ => iff_of_true ⟨(), rfl⟩ (by simp [optionals])
  | .required ty rest, [], r, k + 1, h => absurd (tryInit_required.mp h).1 Ty.tryFrom_none_ne_ok
  | .required ty rest, x :: xs, r, k + 1, h => by
    obtain ⟨hx, hr⟩ := tryInit_required.mp h
    simp only [List.take_succ_cons, optionals, List.drop_succ_cons, ← tryInit_take k hr]
    refine ⟨?_, ?_⟩
    · rintro ⟨s, hs⟩
      exact ⟨s.2, (tryInit_required.mp hs).2⟩
    · rintro ⟨s, hs⟩
      exact ⟨(r.1, s), tryInit_required.mpr ⟨hx, hs⟩⟩
  | .optional ty rest, xs, r, k + 1, h => by
    obtain ⟨hx, hr⟩ := tryInit_optional.mp h
    have hnext : next (xs.take (k + 1)) = ((next xs).1, (next xs).2.take k) := by
      cases xs <;> simp [next]
    simp only [optionals, List.drop_succ_cons, ← tryInit_take k hr]
    refine ⟨?_, ?_⟩
    · rintro ⟨s, hs⟩
      have hrest := (tryInit_optional.mp hs).2
      rw [hnext] at hrest
      exact ⟨s.2, hrest⟩
    · rintro ⟨s, hs⟩
      refine ⟨(r.1, s), tryInit_optional.mpr ?_⟩
      rw [hnext]
      exact ⟨hx, hs⟩

end Fields

mutual
/-- What is encoded is decoded again. -/
theorem Ty.tryFrom_toValue : ∀ {ty : Ty} (a : ty.Carrier), ty.tryFrom (ty.toValue a) = .ok a
  | .scalar _, _ => Impl.tryFrom_eq_ok.mpr rfl
  | .record _, r => Fields.tryInit_toValues r
theorem Fields.tryInit_toValues : ∀ {fields : Fields} (r : fields.Carrier),
    fields.tryInit (fields.toValues r) = .ok r
  | .nil, _ => rfl
  | .required _ _, r =>
    Fields.tryInit_required.mpr ⟨Ty.tryFrom_toValue r.1, Fields.tryInit_toValues r.2⟩
  | .optional _ _, (none, r) => Fields.tryInit_optional.mpr ⟨.inl ⟨rfl, rfl⟩, Fields.tryInit_toValues r⟩
  | .optional _ _, (some a, r) => Fields.tryInit_optional.mpr
    ⟨.inr ⟨Ty.toValue_ne_none, a, Ty.tryFrom_toValue a, rfl⟩, Fields.tryInit_toValues r⟩
end

mutual
theorem Ty.tryFrom_ne_panic : ∀ {ty : Ty} {v : Value}, ty.tryFrom v ≠ .panic
  | .scalar _, _ => Impl.tryFrom_ne_panic
  | .record _, _ => fun h => by
    rcases Outcome.bind_eq_panic.mp h with h | ⟨xs, -, h⟩
    · exact Outcome.ofOption_ne_panic h
    · exact Fields.tryInit_ne_panic h
theorem Fields.tryInit_ne_panic : ∀ {fields : Fields} {xs : List Value}, fields.tryInit xs ≠ .panic
  | .nil, _ => fun h => nomatch h
  | .required _ _, _ => fun h => by
    rcases Outcome.bind_eq_panic.mp h with h | ⟨x, -, h⟩
    · exact Ty.tryFrom_ne_panic h
    · rcases Outcome.bind_eq_panic.mp h with h | ⟨r, -, h⟩
      · exact Fields.tryInit_ne_panic h
      · exact nomatch h
  | .optional ty _, xs => fun h => by
    rcases Outcome.bind_eq_panic.mp h with h | ⟨x, -, h⟩
    · exact Fields.tryOptional_ne_panic (fun _ => Ty.tryFrom_ne_panic) h
    · rcases Outcome.bind_eq_panic.mp h with h | ⟨r, -, h⟩
      · exact Fields.tryInit_ne_panic h
      · exact nomatch h
end

namespace Scalar

/-- The types that hold whole numbers. -/
def IsInteger (s : Scalar) : Prop := s ∈ [u64, u32, u16, u8, i64, i32, i16, i8]

/-- The numbers of a type, as they come from Zeek. -/
def InRange : Scalar → Value → Prop
  | .u64, v => ∃ n, v = .count n
  | .u32, v => ∃ n, v = .count n ∧ n.toNat < 2 ^ 32
  | .u16, v => ∃ n, v = .count n ∧ n.toNat < 2 ^ 16
  | .u8, v => ∃ n, v = .count n ∧ n.toNat < 2 ^ 8
  | .i64, v => ∃ n, v = .integer n
  | .i32, v => ∃ n, v = .integer n ∧ -2 ^ 31 ≤ n.toInt ∧ n.toInt < 2 ^ 31
  | .i16, v => ∃ n, v = .integer n ∧ -2 ^ 15 ≤ n.toInt ∧ n.toInt < 2 ^ 15
  | .i8, v => ∃ n, v = .integer n ∧ -2 ^ 7 ≤ n.toInt ∧ n.toInt < 2 ^ 7
  | _, _ => False

theorem exists_tryFrom_ok {s : Scalar} (hs : s.IsInteger) (v : Value) :
    (∃ a, s.impl.tryFrom v = .ok a) ↔ s.InRange v := by
  cases s with
  | u64 =>
    exact (Impl.exists_tryFrom_ok (i := .exact .count)).trans
      (by simp [InRange, Impl.exact, Variant.count])
  | u32 => exact (Impl.exists_tryFrom_ok (i := u32Impl)).trans (by simp [InRange, u32Impl, Variant.count])
  | u16 => exact (Impl.exists_tryFrom_ok (i := u16Impl)).trans (by simp [InRange, u16Impl, Variant.count])
  | u8 => exact (Impl.exists_tryFrom_ok (i := u8Impl)).trans (by simp [InRange, u8Impl, Variant.count])
  | i64 =>
    exact (Impl.exists_tryFrom_ok (i := .exact .integer)).trans
      (by simp [InRange, Impl.exact, Variant.integer])
  | i32 => exact (Impl.exists_tryFrom_ok (i := i32Impl)).trans (by simp [InRange, i32Impl, Variant.integer])
  | i16 => exact (Impl.exists_tryFrom_ok (i := i16Impl)).trans (by simp [InRange, i16Impl, Variant.integer])
  | i8 => exact (Impl.exists_tryFrom_ok (i := i8Impl)).trans (by simp [InRange, i8Impl, Variant.integer])
  | _ => simp [IsInteger] at hs

end Scalar

/-- A derived struct survives encoding, is decoded from its elements field by field, and is not
affected by elements past its last field. Of trailing elements the optional ones can be left out. -/
theorem Fields.record_evolution (fields : Fields) :
    (∀ x, (Ty.record fields).tryFrom ((Ty.record fields).toValue x) = .ok x) ∧
    (∀ v x, (Ty.record fields).tryFrom v = .ok x ↔
      ∃ xs, v = .vector xs ∧ fields.Fieldwise (fit fields.length xs) x) ∧
    (∀ v, (¬ ∃ x, (Ty.record fields).tryFrom v = .ok x) →
      ∃ e, (Ty.record fields).tryFrom v = .err e) ∧
    (∀ xs ys, fields.length ≤ xs.length →
      (Ty.record fields).tryFrom (.vector (xs ++ ys)) = (Ty.record fields).tryFrom (.vector xs)) ∧
    (∀ xs x, (Ty.record fields).tryFrom (.vector xs) = .ok x →
      ∀ k, (∃ y, (Ty.record fields).tryFrom (.vector (xs.take k)) = .ok y) ↔
        ∀ b ∈ fields.optionals.drop k, b = true) ∧
    ∀ s : Scalar, s.IsInteger → ∀ v,
      ((∃ a, (Ty.scalar s).tryFrom v = .ok a) ↔ s.InRange v) ∧
      ∀ a, (Ty.scalar s).tryFrom v = .ok a ↔ (Ty.scalar s).toValue a = v := by
  have hrecord : ∀ xs, (Ty.record fields).tryFrom (.vector xs) = fields.tryInit xs := fun _ => rfl
  refine ⟨Ty.tryFrom_toValue, fun v x => ?_, fun v hv => ?_, fun xs ys h => tryInit_append ys h,
    fun xs x h k => tryInit_take k h, fun s hs v => ⟨Scalar.exists_tryFrom_ok hs v, fun a => ?_⟩⟩
  · refine ⟨?_, ?_⟩
    · intro h
      obtain ⟨xs, hxs, h⟩ := Outcome.bind_eq_ok.mp h
      exact ⟨xs, Value.getVector_eq_some.mp (Outcome.ofOption_eq_ok.mp hxs), tryInit_eq_ok.mp h⟩
    · rintro ⟨xs, rfl, h⟩
      exact tryInit_eq_ok.mpr h
  · cases h : (Ty.record fields).tryFrom v with
    | ok x => exact absurd ⟨x, h⟩ hv
    | err e => exact ⟨e, rfl⟩
    | panic => exact absurd h Ty.tryFrom_ne_panic
  · exact Impl.tryFrom_eq_ok

/-- A struct with a required number and an optional one. -/
def evolving : Fields := .required (.scalar .u64) (.optional (.scalar .i64) .nil)

/-- An element that is appended where an optional field was left out is not surplus. -/
theorem evolving_appended : ¬ ∀ (fields : Fields) (xs ys : List Value) (x : fields.Carrier),
    (Ty.record fields).tryFrom (.vector xs) = .ok x →
      (Ty.record fields).tryFrom (.vector (xs ++ ys)) = .ok x := by
  intro h
  have hshort : (Ty.record evolving).tryFrom (.vector [.count 1]) = .ok ((1 : UInt64), none, ()) := rfl
  have hlong : (Ty.record evolving).tryFrom (.vector [.count 1, .integer 2]) =
      .ok ((1 : UInt64), some (2 : Int64), ()) := rfl
  have hsame := h evolving [.count 1] [.integer 2] _ hshort
  have hfield : some (2 : Int64) = none :=
    congrArg (fun r : evolving.Carrier => r.2.1) (Outcome.ok.inj (hlong.symm.trans hsame))
  cases hfield

end ZWS
