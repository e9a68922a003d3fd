import ZeekWebSocket.Spec.Macro

/-! The code that the derive macro generates means what the conversions of the struct are, whenever
it compiles; and it compiles when types are written as what they are, generics have defaults, and no
name takes away one that the generated code uses. -/

namespace ZWS.Macro

open Base

namespace Env

variable {x y : Ident} {v w : Val} {σ : Env}

theorem lookup_set_self (h : σ.lookup x = some w) : (σ.set x v).lookup x = some v := by
  induction σ with
  | nil => simp at h
  | cons p σ ih =>
    obtain ⟨z, u⟩ := p
    by_cases hz : z = x
    · subst hz
      simp [set]
    · have hne : (x == z) = false := by simpa using Ne.symm hz
      rw [List.lookup_cons, hne] at h
      simp [set, hz, List.lookup_cons, hne, ih h]

theorem lookup_set_ne (h : y ≠ x) : (σ.set x v).lookup y = σ.lookup y := by
  induction σ with
  | nil => rfl
  | cons p σ ih =>
    obtain ⟨z, u⟩ := p
    by_cases hz : z = x
    · subst hz
      have hne : (y == z) = false := by simpa using h
      simp [set, List.lookup_cons, hne]
    · simp [set, hz, List.lookup_cons, ih]

end Env

section
variable {β : Type} {l : List (Ident × β)} {x y : Ident} {b : β}

theorem lookup_ne (h : x ≠ y) : List.lookup x ((y, b) :: l) = l.lookup x := by
  simp [List.lookup_cons, beq_false_of_ne h]

theorem lookup_of_nodup (h : (l.map Prod.fst).Nodup) (hm : (x, b) ∈ l) : l.lookup x = some b := by
  induction l with
  | nil => simp at hm
  | cons p l ih =>
    obtain ⟨y, c⟩ := p
    obtain ⟨hy, hl⟩ := List.nodup_cons.mp h
    rcases List.mem_cons.mp hm with heq | hrest
    · obtain ⟨rfl, rfl⟩ := Prod.mk.inj heq
      exact List.lookup_cons_self
    · have hne : x ≠ y := by
        rintro rfl
        exact hy (List.mem_map.mpr ⟨_, hrest, rfl⟩)
      rw [lookup_ne hne]
      exact ih hl hrest

end

theorem binds_of_length {x : Ident} (h : 4 < x.length) : Binds x := by
  have hall : ∀ y ∈ ["Some", "None", "Ok", "Err"], y.length ≤ 4 := by decide
  exact fun hx => absurd (hall x hx) (by omega)

theorem binds_append {x y : Ident} (h : 4 < x.length) : Binds (x ++ y) := by
  refine binds_of_length ?_
  rw [String.length_append]
  omega

theorem binds_valueFromVar (name field : Ident) : Binds (valueFromVar name field) := by
  unfold valueFromVar
  rw [String.append_assoc, String.append_assoc]
  exact binds_append (by decide)

theorem binds_iterVar (name : Ident) : Binds (iterVar name) := binds_append (by decide)

theorem binds_fromValueVar (name field : Ident) : Binds (fromValueVar name field) := by
  unfold fromValueVar iterVar
  rw [String.append_assoc, String.append_assoc]
  exact binds_append (by decide)

theorem binds_value : Binds "value" := by decide

/-- The fields of a declaration, with what their types mean. -/
def Means (resolve : Syn → Option FieldTy) (fields : List Field) (schema : Schema) : Prop :=
  List.Forall₂ (fun f s => f.ident = some s.1 ∧ resolve f.ty = some s.2) fields schema

/-- An `Option` is written as one, and nothing else is. -/
def Candid (resolve : Syn → Option FieldTy) (f : Field) : Prop :=
  ∀ ty, resolve f.ty = some ty → looksLikeOption f.ty = .ok ty.isOption

section
variable {resolve : Syn → Option FieldTy} {schema : Schema} {name : Ident} {f : Field} {s : Ident × FieldTy}

theorem valueFromField_eq_ok {e : Expr} (hs : f.ident = some s.1) (h : valueFromField name f = .ok e) :
    (looksLikeOption f.ty = .ok true ∧ e = .matchOption (.field "value" s.1) (valueFromVar name s.1)
      (.valueFrom (.var (valueFromVar name s.1))) .valueNone) ∨
    (looksLikeOption f.ty = .ok false ∧ e = .valueFrom (.field "value" s.1)) := by
  simp only [valueFromField, hs, Outcome.bind_eq_ok] at h
  obtain ⟨b, hb, he⟩ := h
  cases b with
  | true =>
    obtain rfl := Outcome.ok.inj he
    exact .inl ⟨hb, rfl⟩
  | false =>
    obtain rfl := Outcome.ok.inj he
    exact .inr ⟨hb, rfl⟩

theorem fromValueField_eq_ok {i : Ident × Expr} (hs : f.ident = some s.1)
    (h : fromValueField name f = .ok i) :
    (looksLikeOption f.ty = .ok true ∧ i = (s.1, .matchValue (.next (iterVar name)) .none
      (fromValueVar name s.1) (.some (.tryInto (.var (fromValueVar name s.1)))))) ∨
    (looksLikeOption f.ty = .ok false ∧ i = (s.1, .tryInto (.next (iterVar name)))) := by
  simp only [fromValueField, hs, Outcome.bind_eq_ok] at h
  obtain ⟨b, hb, he⟩ := h
  cases b with
  | true =>
    obtain rfl := Outcome.ok.inj he
    exact .inl ⟨hb, rfl⟩
  | false =>
    obtain rfl := Outcome.ok.inj he
    exact .inr ⟨hb, rfl⟩

theorem fromValueField_fst {i : Ident × Expr} (hs : f.ident = some s.1)
    (h : fromValueField name f = .ok i) : i.1 = s.1 := by
  rcases fromValueField_eq_ok hs h with ⟨-, rfl⟩ | ⟨-, rfl⟩ <;> rfl

theorem candid_iff {b : Bool} (hty : resolve f.ty = some s.2) (hb : looksLikeOption f.ty = .ok b) :
    Candid resolve f ↔ s.2.isOption = b := by
  simp [Candid, hty, hb, eq_comm]

/-- Reading a field for a value type checks if its type is written as what it is. -/
theorem valueFromField_hasKind {e : Expr} (hs : f.ident = some s.1) (hty : resolve f.ty = some s.2)
    (hlookup : schema.lookup s.1 = some s.2) (h : valueFromField name f = .ok e) :
    HasKind schema [("value", .record)] e .value ↔ Candid resolve f := by
  have hfield : ∀ ty, HasKind schema [("value", .record)] (.field "value" s.1) (.slot ty) ↔ ty = s.2 := by
    intro ty
    refine ⟨fun hk => ?_, ?_⟩
    · cases hk with
      | field _ hf => exact Option.some.inj (hf.symm.trans hlookup)
    · rintro rfl
      exact .field List.lookup_cons_self hlookup
  rcases valueFromField_eq_ok hs h with ⟨hb, rfl⟩ | ⟨hb, rfl⟩
  · rw [candid_iff hty hb]
    refine ⟨fun hk => ?_, fun ho => ?_⟩
    · cases hk with
      | matchOption he => rw [← (hfield _).mp he]; rfl
    · obtain ⟨ty, hopt⟩ : ∃ ty, s.2 = .option ty := by cases hs2 : s.2 <;> simp_all [FieldTy.isOption]
      exact .matchOption ((hfield _).mpr hopt.symm) (binds_valueFromVar name s.1)
        (.valueFrom (.var List.lookup_cons_self)) .valueNone
  · rw [candid_iff hty hb]
    refine ⟨fun hk => ?_, fun ho => ?_⟩
    · cases hk with
      | valueFrom he => rw [← (hfield _).mp he]; rfl
    · obtain ⟨ty, hplain⟩ : ∃ ty, s.2 = .plain ty := by cases hs2 : s.2 <;> simp_all [FieldTy.isOption]
      exact .valueFrom ((hfield _).mpr hplain.symm)

/-- Initialising a field type checks if its type is written as what it is and the iterator is in
scope. -/
theorem fromValueField_hasKind {Γ : Scope} {i : Ident × Expr} (hs : f.ident = some s.1)
    (hty : resolve f.ty = some s.2) (h : fromValueField name f = .ok i) :
    HasKind schema Γ i.2 (.slot s.2) ↔ Candid resolve f ∧ Γ.lookup (iterVar name) = some .iter := by
  rcases fromValueField_eq_ok hs h with ⟨hb, rfl⟩ | ⟨hb, rfl⟩
  · rw [candid_iff hty hb]
    refine ⟨fun hk => ?_, fun hc => ?_⟩
    · generalize s.2 = ty at hk
      cases hk with
      | matchValue he ha _ _ =>
        cases he with
        | next hx =>
          cases ha with
          | none => exact ⟨rfl, hx⟩
    · obtain ⟨ho, hx⟩ := hc
      obtain ⟨ty, hopt⟩ : ∃ ty, s.2 = .option ty := by cases hs2 : s.2 <;> simp_all [FieldTy.isOption]
      rw [hopt]
      exact .matchValue (.next hx) .none (binds_fromValueVar name s.1)
        (.some (.tryInto (.var List.lookup_cons_self)))
  · rw [candid_iff hty hb]
    refine ⟨fun hk => ?_, fun hc => ?_⟩
    · generalize s.2 = ty at hk
      cases hk with
      | tryInto he =>
        cases he with
        | next hx => exact ⟨rfl, hx⟩
    · obtain ⟨ho, hx⟩ := hc
      obtain ⟨ty, hplain⟩ : ∃ ty, s.2 = .plain ty := by cases hs2 : s.2 <;> simp_all [FieldTy.isOption]
      rw [hplain]
      exact .tryInto (.next hx)

end

/-- The variables that the initialised fields end up in. -/
def scopeAfter (Γ : Scope) : Schema → Scope
  | [] => Γ
  | s :: schema => scopeAfter ((s.1, .slot s.2) :: Γ) schema

theorem lookup_scopeAfter_of_notMem {x : Ident} : ∀ {schema : Schema} {Γ : Scope},
    x ∉ schema.map Prod.fst → (scopeAfter Γ schema).lookup x = Γ.lookup x
  | [], _, _ => rfl
  | s :: schema, Γ, h => by
    obtain ⟨hne, hx⟩ : x ≠ s.1 ∧ x ∉ schema.map Prod.fst := by simpa [not_or] using h
    rw [scopeAfter, lookup_scopeAfter_of_notMem hx, lookup_ne hne]

theorem lookup_scopeAfter {s : Ident × FieldTy} : ∀ {schema : Schema} {Γ : Scope},
    (schema.map Prod.fst).Nodup → s ∈ schema → (scopeAfter Γ schema).lookup s.1 = some (.slot s.2)
  | t :: schema, Γ, hn, hm => by
    obtain ⟨ht, hrest⟩ := List.nodup_cons.mp hn
    rcases List.mem_cons.mp hm with rfl | hs
    · rw [scopeAfter, lookup_scopeAfter_of_notMem ht, List.lookup_cons_self]
    · rw [scopeAfter]
      exact lookup_scopeAfter hrest hs

section
variable {resolve : Syn → Option FieldTy} {schema : Schema} {name : Ident}

theorem InitsCompile.scope {Γ Γ' : Scope} {rest : Schema} {fields : List Field}
    {inits : List (Ident × Expr)} (hm : Means resolve fields rest)
    (hi : List.Forall₂ (fun f i => fromValueField name f = .ok i) fields inits)
    (hlookup : ∀ s ∈ rest, schema.lookup s.1 = some s.2) (h : InitsCompile schema Γ inits Γ') :
    Γ' = scopeAfter Γ rest := by
  induction hm generalizing inits Γ with
  | nil =>
    obtain rfl := List.forall₂_nil_left_iff.mp hi
    cases h
    rfl
  | @cons f s fields rest hf _ ih =>
    obtain ⟨i, inits, hif, his, rfl⟩ := List.forall₂_cons_left_iff.mp hi
    obtain ⟨hs, hrest⟩ := List.forall_mem_cons.mp hlookup
    obtain ⟨g, e⟩ := i
    obtain rfl : g = s.1 := fromValueField_fst hf.1 hif
    cases h with
    | cons hty _ _ hnext =>
      obtain rfl := Option.some.inj (hs.symm.trans hty)
      exact ih his hrest hnext

/-- The inits compile as long as the iterator is in scope and each binds its variable. -/
theorem initsCompile_iff {Γ : Scope} {rest : Schema} {fields : List Field}
    {inits : List (Ident × Expr)} (hm : Means resolve fields rest)
    (hi : List.Forall₂ (fun f i => fromValueField name f = .ok i) fields inits)
    (hlookup : ∀ s ∈ rest, schema.lookup s.1 = some s.2) :
    InitsCompile schema Γ inits (scopeAfter Γ rest) ↔ (∀ f ∈ fields, Candid resolve f) ∧
      (∀ s ∈ rest, Binds s.1) ∧ (rest ≠ [] → Γ.lookup (iterVar name) = some .iter ∧
        iterVar name ∉ (rest.map Prod.fst).dropLast) := by
  induction hm generalizing inits Γ with
  | nil =>
    obtain rfl := List.forall₂_nil_left_iff.mp hi
    exact ⟨fun _ => ⟨by simp, by simp, fun h => absurd rfl h⟩, fun _ => .nil⟩
  | @cons f s fields rest hf _ ih =>
    obtain ⟨i, inits, hif, his, rfl⟩ := List.forall₂_cons_left_iff.mp hi
    obtain ⟨hs, hrest⟩ := List.forall_mem_cons.mp hlookup
    obtain ⟨g, e⟩ := i
    obtain rfl : g = s.1 := fromValueField_fst hf.1 hif
    have hkind : HasKind schema Γ e (.slot s.2) ↔
        Candid resolve f ∧ Γ.lookup (iterVar name) = some .iter := fromValueField_hasKind hf.1 hf.2 hif
    have hstep : InitsCompile schema Γ ((s.1, e) :: inits) (scopeAfter Γ (s :: rest)) ↔
        HasKind schema Γ e (.slot s.2) ∧ Binds s.1 ∧
          InitsCompile schema ((s.1, .slot s.2) :: Γ) inits (scopeAfter Γ (s :: rest)) := by
      refine ⟨fun h => ?_, fun h => ?_⟩
      · cases h with
        | cons hty hk hb hnext =>
          obtain rfl := Option.some.inj (hs.symm.trans hty)
          exact ⟨hk, hb, hnext⟩
      · exact .cons hs h.1 h.2.1 h.2.2
    rw [hstep, hkind, scopeAfter, ih his hrest, List.forall_mem_cons, List.forall_mem_cons]
    cases rest with
    | nil =>
      simp only [ne_eq, not_true_eq_false, false_imp_iff, List.not_mem_nil, implies_true, and_true,
        reduceCtorEq, not_false_eq_true, forall_const, List.map_cons, List.map_nil,
        List.dropLast_singleton]
      tauto
    | cons t rest =>
      have hshadow : List.lookup (iterVar name) ((s.1, Kind.slot s.2) :: Γ) = some .iter ↔
          iterVar name ≠ s.1 ∧ Γ.lookup (iterVar name) = some .iter := by
        by_cases heq : iterVar name = s.1
        · simp [heq]
        · simp [heq, lookup_ne heq]
      simp only [hshadow, List.map_cons, List.dropLast_cons_cons, List.mem_cons, not_or, ne_eq,
        reduceCtorEq, not_false_eq_true, forall_const]
      tauto

end

/-- The conversions of a field, as its type asks for them. -/
def FieldTy.toValue : (ty : FieldTy) → ty.Carrier → Value
  | .plain ty, a => ty.toValue a
  | .option ty, a =>
    match a with
    | some x => ty.toValue x
    | none => .none

def FieldTy.tryFrom : (ty : FieldTy) → Value → Outcome ConversionError ty.Carrier
  | .plain ty => ty.tryFrom
  | .option ty => tryOptional ty.tryFrom

section
variable {resolve : Syn → Option FieldTy} {schema : Schema} {name : Ident} {f : Field}
  {s : Ident × FieldTy} {σ : Env} {xs : List Value}

/-- What an element of the vector evaluates to. -/
theorem eval_valueFromField {e : Expr} {r : Record} {a : s.2.Carrier} (hs : f.ident = some s.1)
    (hty : resolve f.ty = some s.2) (hc : Candid resolve f) (h : valueFromField name f = .ok e)
    (hr : r.lookup s.1 = some ⟨s.2, a⟩) :
    e.eval .value [("value", .record r)] = .ok (.value (s.2.toValue a), [("value", .record r)]) := by
  obtain ⟨g, ty⟩ := s
  rcases valueFromField_eq_ok hs h with ⟨hb, rfl⟩ | ⟨hb, rfl⟩
  · have ho := (candid_iff hty hb).mp hc
    cases ty with
    | plain ty => exact absurd ho (by simp [FieldTy.isOption])
    | option ty =>
      cases a <;> simp [Expr.eval, evalVar, Outcome.ofOption, hr, FieldTy.toValue]
  · have ho := (candid_iff hty hb).mp hc
    cases ty with
    | plain ty => simp [Expr.eval, evalVar, Outcome.ofOption, hr, FieldTy.toValue]
    | option ty => exact absurd ho (by simp [FieldTy.isOption])

/-- What the initialiser of a field evaluates to: the next element, converted. -/
theorem eval_fromValueField {i : Ident × Expr} (hs : f.ident = some s.1)
    (hty : resolve f.ty = some s.2) (hc : Candid resolve f) (h : fromValueField name f = .ok i)
    (hσ : σ.lookup (iterVar name) = some (.iter xs)) :
    i.2.eval (.slot s.2) σ = ((s.2.tryFrom (next xs).1).mapErr .returned >>= fun a =>
      .ok (.slot ⟨s.2, a⟩, σ.set (iterVar name) (.iter (next xs).2))) := by
  obtain ⟨g, ty⟩ := s
  rcases fromValueField_eq_ok hs h with ⟨hb, rfl⟩ | ⟨hb, rfl⟩
  · have ho := (candid_iff hty hb).mp hc
    cases ty with
    | plain ty => exact absurd ho (by simp [FieldTy.isOption])
    | option ty =>
      have hlast : ∀ v, evalVar (fromValueVar name g)
          ((fromValueVar name g, .value v) :: σ.set (iterVar name) (.iter (next xs).2)) =
            .ok (.value v) := fun v => by simp [evalVar, Outcome.ofOption]
      have hnext : evalVar (iterVar name) σ = .ok (.iter xs) := by simp [evalVar, hσ, Outcome.ofOption]
      cases hv : (next xs).1 with
      | none =>
        simp only [Expr.eval, hnext, hv, Outcome.ok_bind, Outcome.pure_def, FieldTy.tryFrom, tryOptional]
        rfl
      | _ =>
        simp only [Expr.eval, hnext, hv, hlast, Outcome.ok_bind, Outcome.pure_def, FieldTy.tryFrom,
          tryOptional]
        cases ty.tryFrom _ <;> rfl
  · have ho := (candid_iff hty hb).mp hc
    cases ty with
    | plain ty =>
      simp only [Expr.eval, evalVar, Outcome.ofOption, hσ, Outcome.ok_bind, Outcome.pure_def,
        FieldTy.tryFrom]
      cases ty.tryFrom _ <;> rfl
    | option ty => exact absurd ho (by simp [FieldTy.isOption])

end

section
variable {resolve : Syn → Option FieldTy} {name : Ident}

theorem runNames_append {done rest : Record} {σ : Env}
    (h : ∀ p ∈ done ++ rest, σ.lookup p.1 = some (.slot p.2)) :
    runNames ((done ++ rest).map Prod.fst) σ = .ok (done ++ rest) := by
  rw [runNames, Outcome.mapM_eq_ok, List.forall₂_map_left_iff]
  refine List.forall₂_same.mpr fun p hp => ?_
  simp [runName, evalVar, Outcome.ofOption, h p hp]

theorem Schema.record_fst : ∀ (schema : Schema) (r : schema.fields.Carrier),
    (schema.record r).map Prod.fst = schema.map Prod.fst
  | [], _ => rfl
  | (f, .plain _) :: schema, r => congrArg (f :: ·) (Schema.record_fst schema r.2)
  | (f, .option _) :: schema, r => congrArg (f :: ·) (Schema.record_fst schema r.2)

/-- A struct is read field by field. -/
theorem Schema.tryInit_cons (s : Ident × FieldTy) (rest : Schema) (xs : List Value) {ε : Type}
    (f : ConversionError → ε) (g : Record → Outcome ε Record) :
    (((Schema.fields (s :: rest)).tryInit xs).mapErr f >>= fun r => g (Schema.record (s :: rest) r)) =
      ((s.2.tryFrom (next xs).1).mapErr f >>= fun a =>
        ((Schema.fields rest).tryInit (next xs).2).mapErr f >>= fun r =>
          g ((s.1, ⟨s.2, a⟩) :: Schema.record rest r)) := by
  obtain ⟨x, ty⟩ := s
  cases ty with
  | plain ty =>
    simp only [Schema.fields, Fields.tryInit, FieldTy.tryFrom]
    cases ty.tryFrom (next xs).1 with
    | ok a => cases (Schema.fields rest).tryInit (next xs).2 <;> rfl
    | _ => rfl
  | option ty =>
    simp only [Schema.fields, Fields.tryInit, FieldTy.tryFrom]
    cases tryOptional ty.tryFrom (next xs).1 with
    | ok a => cases (Schema.fields rest).tryInit (next xs).2 <;> rfl
    | _ => rfl

/-- From an environment in which some fields are initialised, the others are initialised from what
is left of the iterator. -/
theorem run_inits {schema rest : Schema} {fields : List Field} {inits : List (Ident × Expr)}
    (hm : Means resolve fields rest)
    (hi : List.Forall₂ (fun f i => fromValueField name f = .ok i) fields inits)
    (hc : ∀ f ∈ fields, Candid resolve f) (hlookup : ∀ s ∈ rest, schema.lookup s.1 = some s.2)
    (hfresh : iterVar name ∉ (rest.map Prod.fst).dropLast) (done : Record) (σ : Env) (xs : List Value)
    (hnodup : (done.map Prod.fst ++ rest.map Prod.fst).Nodup)
    (hdone : ∀ p ∈ done, σ.lookup p.1 = some (.slot p.2))
    (hiter : rest ≠ [] → σ.lookup (iterVar name) = some (.iter xs) ∧
      iterVar name ∉ done.map Prod.fst) :
    (runInits schema inits σ >>= runNames (done.map Prod.fst ++ rest.map Prod.fst)) =
      ((Schema.fields rest).tryInit xs).mapErr .returned >>= fun r => .ok (done ++ rest.record r) := by
  induction hm generalizing inits done σ xs with
  | nil =>
    obtain rfl := List.forall₂_nil_left_iff.mp hi
    have hnames : runNames (done.map Prod.fst ++ []) σ = .ok (done ++ []) := by
      have happend : runNames ((done ++ []).map Prod.fst) σ = .ok (done ++ []) :=
        runNames_append (by simpa using hdone)
      simpa using happend
    exact hnames
  | @cons f s fields rest hf _ ih =>
    obtain ⟨i, inits, hif, his, rfl⟩ := List.forall₂_cons_left_iff.mp hi
    obtain ⟨hs, hrest⟩ := List.forall_mem_cons.mp hlookup
    obtain ⟨hcf, hcs⟩ := List.forall_mem_cons.mp hc
    obtain ⟨hit, hnot⟩ := hiter (by simp)
    have heval := eval_fromValueField hf.1 hf.2 hcf hif hit
    obtain ⟨g, e⟩ := i
    obtain rfl : g = s.1 := fromValueField_fst hf.1 hif
    rw [Schema.tryInit_cons s rest xs Failure.returned fun r => .ok (done ++ r)]
    simp only [runInits, hs, Outcome.ofOption, Outcome.ok_bind, heval, bind_assoc]
    cases hconv : (s.2.tryFrom (next xs).1).mapErr Failure.returned with
    | ok a =>
      simp only [Outcome.ok_bind]
      have hmem : s.1 ∉ done.map Prod.fst := fun hmem =>
        (List.nodup_append.mp hnodup).2.2 s.1 hmem s.1 (by simp) rfl
      have hstep := ih his hcs hrest (by cases rest <;> simp_all) (done ++ [(s.1, ⟨s.2, a⟩)])
        ((s.1, .slot ⟨s.2, a⟩) :: σ.set (iterVar name) (.iter (next xs).2)) (next xs).2
        (by simpa using hnodup) ?_ ?_
      · simpa using hstep
      · intro p hp
        rcases List.mem_append.mp hp with hp | hp
        · have hne : p.1 ≠ s.1 := fun heq => hmem (heq ▸ List.mem_map_of_mem hp)
          have hne' : p.1 ≠ iterVar name := fun heq => hnot (heq ▸ List.mem_map_of_mem hp)
          rw [lookup_ne hne, Env.lookup_set_ne hne']
          exact hdone p hp
        · obtain rfl := List.mem_singleton.mp hp
          exact List.lookup_cons_self
      · intro hne
        obtain ⟨t, rest, rfl⟩ := List.exists_cons_of_ne_nil hne
        have hother : iterVar name ≠ s.1 := by
          rintro heq
          simp [heq] at hfresh
        refine ⟨?_, ?_⟩
        · rw [lookup_ne hother]
          exact Env.lookup_set_self hit
        · simp only [List.map_append, List.mem_append, not_or]
          exact ⟨hnot, by simpa using hother⟩
    | err e => rfl
    | panic => rfl

end

/-- The code uses no name in two ways: the struct is none of the items of the prelude that the impls
name, no field is a variant of it, and none but the last is the iterator. -/
structure Apart (name : Ident) (schema : Schema) : Prop where
  struct : name ∉ ["From", "TryFrom", "Result"]
  binds : ∀ f ∈ schema, Binds f.1
  iter : iterVar name ∉ (schema.map Prod.fst).dropLast

/-- The impls that a derive generates do what the conversions of the struct do, and exactly these
declarations have impls that compile. -/
structure Preserves (ast : DeriveInput) (resolve : Syn → Option FieldTy) (fields : List Field)
    (schema : Schema) (impls : Impls) : Prop where
  compiles : impls.valueFrom.Compiles ast.generics schema ∧ impls.fromValue.Compiles ast.generics schema ↔
    (∀ f ∈ fields, Candid resolve f) ∧ (∀ param ∈ ast.generics, param.default.isSome) ∧
      Apart ast.ident schema
  valueFrom : impls.valueFrom.Compiles ast.generics schema → ∀ r : schema.fields.Carrier,
    impls.valueFrom.run (schema.record r) = .ok (Ty.toValue (.record schema.fields) r)
  fromValue : impls.fromValue.Compiles ast.generics schema → ∀ v,
    impls.fromValue.run schema v = ((Ty.record schema.fields).tryFrom v).mapErr .returned >>= fun r =>
      .ok (schema.record r)

section
variable {resolve : Syn → Option FieldTy} {fields : List Field} {schema : Schema} {name : Ident}
  {generics : List GenericParam}

theorem deriveImpl_eq_ok {impls : Impls}
    (h : deriveImpl ⟨name, generics, .struct (.named fields)⟩ = .ok impls) :
    (∃ elements, impls.valueFrom = ⟨name, "value", elements⟩ ∧
      List.Forall₂ (fun f e => valueFromField name f = .ok e) fields elements) ∧
    ∃ inits, impls.fromValue = ⟨name, "value", iterVar name, inits, inits.map Prod.fst⟩ ∧
      List.Forall₂ (fun f i => fromValueField name f = .ok i) fields inits := by
  simp only [deriveImpl, implValueFrom, implFromValue, Outcome.bind_eq_ok, Outcome.mapM_eq_ok,
    Outcome.pure_def, Outcome.ok.injEq] at h
  obtain ⟨_, ⟨elements, helements, rfl⟩, fromValue, hfrom, rfl⟩ := h
  split at hfrom
  · exact absurd hfrom (by simp)
  · simp only [Outcome.bind_eq_ok, Outcome.mapM_eq_ok, Outcome.ok.injEq] at hfrom
    obtain ⟨inits, hinits, rfl⟩ := hfrom
    exact ⟨⟨elements, rfl, helements⟩, inits, rfl, hinits⟩

theorem inits_fst {rest : Schema} {fields : List Field} {inits : List (Ident × Expr)}
    (hm : Means resolve fields rest)
    (hi : List.Forall₂ (fun f i => fromValueField name f = .ok i) fields inits) :
    inits.map Prod.fst = rest.map Prod.fst := by
  induction hm generalizing inits with
  | nil =>
    obtain rfl := List.forall₂_nil_left_iff.mp hi
    rfl
  | cons hf _ ih =>
    obtain ⟨i, inits, hif, his, rfl⟩ := List.forall₂_cons_left_iff.mp hi
    rw [List.map_cons, List.map_cons, ih his, fromValueField_fst hf.1 hif]

theorem elements_compile {rest : Schema} {elements : List Expr} (hm : Means resolve fields rest)
    (he : List.Forall₂ (fun f e => valueFromField name f = .ok e) fields elements)
    (hlookup : ∀ s ∈ rest, schema.lookup s.1 = some s.2) :
    (∀ e ∈ elements, HasKind schema [("value", .record)] e .value) ↔
      ∀ f ∈ fields, Candid resolve f := by
  induction hm generalizing elements with
  | nil =>
    obtain rfl := List.forall₂_nil_left_iff.mp he
    simp
  | cons hf _ ih =>
    obtain ⟨e, elements, hef, hes, rfl⟩ := List.forall₂_cons_left_iff.mp he
    obtain ⟨hs, hrest⟩ := List.forall_mem_cons.mp hlookup
    rw [List.forall_mem_cons, List.forall_mem_cons, ih hes hrest,
      valueFromField_hasKind hf.1 hf.2 hs hef]

/-- A struct is its first field and the others. -/
theorem Schema.toValues_cons (s : Ident × FieldTy) (rest : Schema)
    (r : (Schema.fields (s :: rest)).Carrier) : ∃ (a : s.2.Carrier) (r' : (Schema.fields rest).Carrier),
      Schema.record (s :: rest) r = (s.1, ⟨s.2, a⟩) :: Schema.record rest r' ∧
      (Schema.fields (s :: rest)).toValues r = s.2.toValue a :: (Schema.fields rest).toValues r' := by
  obtain ⟨x, ty⟩ := s
  cases ty with
  | plain ty => exact ⟨r.1, r.2, rfl, rfl⟩
  | option ty => exact ⟨r.1, r.2, rfl, rfl⟩

theorem eval_elements {rest : Schema} {elements : List Expr} {record : Record}
    (hm : Means resolve fields rest)
    (he : List.Forall₂ (fun f e => valueFromField name f = .ok e) fields elements)
    (hc : ∀ f ∈ fields, Candid resolve f) (r : (Schema.fields rest).Carrier)
    (hlookup : ∀ p ∈ Schema.record rest r, record.lookup p.1 = some p.2) :
    List.Forall₂ (fun e v => e.eval .value [("value", .record record)] =
      .ok (.value v, [("value", .record record)])) elements ((Schema.fields rest).toValues r) := by
  induction hm generalizing elements with
  | nil =>
    obtain rfl := List.forall₂_nil_left_iff.mp he
    exact .nil
  | @cons f s fields rest hf _ ih =>
    obtain ⟨e, elements, hef, hes, rfl⟩ := List.forall₂_cons_left_iff.mp he
    obtain ⟨hcf, hcs⟩ := List.forall_mem_cons.mp hc
    obtain ⟨a, r', hrecord, hvalues⟩ := Schema.toValues_cons s rest r
    rw [hrecord] at hlookup
    obtain ⟨hs, hrest⟩ := List.forall_mem_cons.mp hlookup
    rw [hvalues]
    exact .cons (eval_valueFromField hf.1 hf.2 hcf hef hs) (ih hes hcs r' hrest)

theorem lookup_record (hn : (schema.map Prod.fst).Nodup) (r : schema.fields.Carrier) :
    ∀ p ∈ schema.record r, (schema.record r).lookup p.1 = some p.2 := fun p hp =>
  lookup_of_nodup (by rwa [Schema.record_fst]) hp

end

theorem Means.preserves {name : Ident} {generics : List GenericParam} {fields : List Field}
    {resolve : Syn → Option FieldTy} {schema : Schema} {impls : Impls}
    (hm : Means resolve fields schema) (hn : (schema.map Prod.fst).Nodup)
    (h : deriveImpl ⟨name, generics, .struct (.named fields)⟩ = .ok impls) :
    Preserves ⟨name, generics, .struct (.named fields)⟩ resolve fields schema impls := by
  obtain ⟨⟨elements, hvalueFrom, helements⟩, inits, hfrom, hinits⟩ := deriveImpl_eq_ok h
  have hlookup : ∀ s ∈ schema, schema.lookup s.1 = some s.2 := fun s hs => lookup_of_nodup hn hs
  have hvalue : impls.valueFrom.Compiles generics schema ↔
      StandsFor generics ["From"] name ∧ ∀ f ∈ fields, Candid resolve f := by
    rw [ValueFrom.Compiles, hvalueFrom, elements_compile hm helements hlookup, and_iff_right binds_value]
  have hcompiles : impls.fromValue.Compiles generics schema ↔
      StandsFor generics ["TryFrom", "Result"] name ∧ (∀ f ∈ fields, Candid resolve f) ∧
        (∀ s ∈ schema, Binds s.1) ∧ iterVar name ∉ (schema.map Prod.fst).dropLast := by
    have hiff := initsCompile_iff (Γ := [(iterVar name, .iter), ("value", .value)]) hm hinits hlookup
    have hempty : iterVar name ∉ (schema.map Prod.fst).dropLast ↔
        (schema ≠ [] →
          List.lookup (iterVar name) [(iterVar name, Kind.iter), ("value", .value)] = some .iter ∧
          iterVar name ∉ (schema.map Prod.fst).dropLast) := by
      cases schema with
      | nil => simp
      | cons s schema => simp
    rw [hempty, ← hiff, FromValue.Compiles, hfrom]
    refine ⟨fun hc => ?_, fun hc => ⟨hc.1, binds_value, binds_iterVar name, inits_fst hm hinits, _, hc.2,
      fun s hs => lookup_scopeAfter hn hs⟩⟩
    obtain ⟨hname, -, -, -, Γ, hΓ, -⟩ := hc
    obtain rfl := hΓ.scope hm hinits hlookup
    exact ⟨hname, hΓ⟩
  refine ⟨?_, ?_, ?_⟩
  · rw [hvalue, hcompiles]
    refine ⟨?_, ?_⟩
    · rintro ⟨⟨⟨hfrom, hdefaults⟩, hcandid⟩, ⟨htry, -⟩, -, hbinds, hiter⟩
      have hstruct : name ∉ ["From", "TryFrom", "Result"] := by simp_all
      exact ⟨hcandid, hdefaults, hstruct, hbinds, hiter⟩
    · rintro ⟨hcandid, hdefaults, hstruct, hbinds, hiter⟩
      obtain ⟨hne, htry⟩ : name ∉ ["From"] ∧ name ∉ ["TryFrom", "Result"] := by simp_all
      exact ⟨⟨⟨hne, hdefaults⟩, hcandid⟩, ⟨htry, hdefaults⟩, hcandid, hbinds, hiter⟩
  · intro hc r
    have heval := eval_elements hm helements (hvalue.mp hc).2 r (lookup_record hn r)
    have hrun : elements.mapM (impls.valueFrom.element (schema.record r)) = .ok (schema.fields.toValues r) := by
      rw [Outcome.mapM_eq_ok]
      refine heval.imp fun e v hev => ?_
      rw [ValueFrom.element, hvalueFrom, hev]
      rfl
    rw [hvalueFrom] at hrun ⊢
    rw [ValueFrom.run, hrun]
    rfl
  · intro hc v
    obtain ⟨-, hcandid, -, hfresh⟩ := hcompiles.mp hc
    rw [hfrom]
    cases v with
    | vector xs =>
      have hrun := run_inits hm hinits hcandid hlookup hfresh []
        [(iterVar name, .iter xs), ("value", .value (.vector xs))] xs (by simpa using hn) (by simp)
        fun _ => ⟨List.lookup_cons_self, by simp⟩
      simp only [FromValue.run, inits_fst hm hinits]
      exact hrun
    | _ => rfl

/-- The macro accepts structs with named fields only, and what it generates for one does what is
asked of it, whatever the types of the fields mean. -/
theorem derive_preserves (ast : DeriveInput) (impls : Impls) (h : deriveImpl ast = .ok impls) :
    ∃ fields, ast.data = .struct (.named fields) ∧ ∀ resolve schema, Means resolve fields schema →
      (schema.map Prod.fst).Nodup → Preserves ast resolve fields schema impls := by
  obtain ⟨name, generics, data⟩ := ast
  cases data with
  | struct list =>
    cases list with
    | named fields => exact ⟨fields, rfl, fun resolve schema hm hn => hm.preserves hn h⟩
    | _ => exact absurd h (by simp [deriveImpl])
  | _ => exact absurd h (by simp [deriveImpl])

/-- The struct `X` with a field `a: u64` and a field `b: std::option::Option<i64>`. -/
def declaration : List Field :=
  [⟨some "a", .path [⟨"u64", ""⟩]⟩,
    ⟨some "b", .path [⟨"std", ""⟩, ⟨"option", ""⟩, ⟨"Option", "<i64>"⟩]⟩]

def meaning : Syn → Option FieldTy
  | .path [⟨"u64", ""⟩] => some (.plain (.scalar .u64))
  | .path [⟨"std", ""⟩, ⟨"option", ""⟩, ⟨"Option", "<i64>"⟩] => some (.option (.scalar .i64))
  | _ => none

def declared : Schema := [("a", .plain (.scalar .u64)), ("b", .option (.scalar .i64))]

theorem declaration_preserved :
    ∃ impls, deriveImpl ⟨"X", [], .struct (.named declaration)⟩ = .ok impls ∧
    Preserves ⟨"X", [], .struct (.named declaration)⟩ meaning declaration declared impls ∧
    impls.fromValue.Compiles [] declared := by
  obtain ⟨impls, himpls⟩ : ∃ impls, deriveImpl ⟨"X", [], .struct (.named declaration)⟩ = .ok impls :=
    ⟨_, rfl⟩
  obtain ⟨fields, hfields, hpreserves⟩ := derive_preserves _ impls himpls
  obtain rfl : declaration = fields := by simpa using hfields
  have hmeans : Means meaning declaration declared := .cons ⟨rfl, rfl⟩ (.cons ⟨rfl, rfl⟩ .nil)
  have hp := hpreserves meaning declared hmeans (by decide)
  refine ⟨impls, himpls, hp, (hp.compiles.mpr ⟨fun f hf ty hty => ?_, by simp, by decide, by decide,
    by decide⟩).2⟩
  rcases List.mem_cons.mp hf with rfl | hf
  · obtain rfl := Option.some.inj hty
    rfl
  · obtain rfl := List.mem_singleton.mp hf
    obtain rfl := Option.some.inj hty
    rfl

end ZWS.Macro
