import ZeekWebSocket.Proofs.MakeValue
import ZeekWebSocket.Sanity.Python
import ZeekWebSocket.Sanity.Sample
import ZeekWebSocket.Spec.Dataclass

/-! The attribute `value` and `make_value`. What a value hands out is inferred as that value
again, except that `None` comes out as an empty tuple, and except for texts that PyO3 does not
recognise as the addresses they spell. -/

namespace ZWS.Python

open Base

section
variable {Ty Obj : Type}

/-- What PyO3 finds in an object that was made from `n`. -/
def Answers (py : PyObjects Obj) (I : Interpreter Ty Obj) (P : Platform) (n : Native) (o : Obj) :
    Prop :=
  let plain := py.asBool o = none ∧ py.asFloat o = none ∧ py.asDuration o = none ∧
    py.asDateTime o = none
  match n with
  | .bool b => py.asBool o = some b
  | .int n => py.asAddress o = none ∧ (∀ k : UInt8, n = k.toNat → py.asU8 o = some k) ∧
      ∀ k : UInt16, n = k.toNat → py.asU16 o = some k
  | .float x => py.asBool o = none ∧ py.asFloat o = some x
  | .str s => plain ∧ py.asAddress o = P.parseAddr s ∧ py.asTuple o = none ∧
      py.asSequence o = none ∧ py.asSet o = none ∧ py.asDict o = none ∧ py.asString o = some s
  -- only durations and times that came from Python are ones that it has
  | .timedelta d => py.asBool o = none ∧ py.asFloat o = none ∧
      ((∃ o', py.asDuration o' = some d) → py.asDuration o = some d)
  | .datetime t => py.asBool o = none ∧ py.asFloat o = none ∧ py.asDuration o = none ∧
      ((∃ o', py.asDateTime o' = some t) → ∃ t', py.asDateTime o = some t' ∧ t'.unixNanos = t.unixNanos)
  | .address a => plain ∧ py.asAddress o = some a
  | .protocol p => py.asProtocol o = some p
  | .tuple ns => plain ∧ py.asAddress o = none ∧ ∃ os, py.asTuple o = some os ∧
      py.asSequence o = some os ∧ List.Forall₂ (fun n o => I.ofNative n = some o) ns os
  | .list xs => plain ∧ py.asAddress o = none ∧ py.asTuple o = none ∧
      py.asSequence o = some (xs.map I.ofValue)
  -- the items of a set come in any order
  | .set xs => plain ∧ py.asAddress o = none ∧ py.asTuple o = none ∧ py.asSequence o = none ∧
      (Ascending Value.cmp xs → ∃ ys : List Value, ys.Perm xs ∧ py.asSet o = some (ys.map I.ofValue))
  | .dict es => plain ∧ py.asAddress o = none ∧ py.asTuple o = none ∧ py.asSequence o = none ∧
      py.asSet o = none ∧ (Ascending (byKey Value.cmp) es → ∃ fs : List (Value × Value), fs.Perm es ∧
        py.asDict o = some (fs.map fun e => (I.ofValue e.1, I.ofValue e.2)))
  | .fields _ => True

/-- A value whose timedeltas and datetimes are ones that Python has. -/
def Handed (py : PyObjects Obj) : Value → Prop
  | .timespan d => ∃ o, py.asDuration o = some d
  | .timestamp t => ∃ o, py.asDateTime o = some t
  | _ => True

/-- PyO3 recognises what it made itself, a text is neither a tuple nor a set nor a dict, and
`None` is nothing but `None`. -/
structure PyO3 (py : PyObjects Obj) (I : Interpreter Ty Obj) (P : Platform) : Prop where
  asValue_ofValue : ∀ v, py.asValue (I.ofValue v) = some v
  makes : ∀ v, Handed py v → ∃ o, I.ofNative v.value = some o
  asValue_ofNative : ∀ n o, I.ofNative n = some o → py.asValue o = none
  answers : ∀ n o, I.ofNative n = some o → Answers py I P n o
  text : ∀ o s, py.asString o = some s →
    py.asTuple o = none ∧ py.asSequence o = none ∧ py.asSet o = none ∧ py.asDict o = none
  none : ∀ o, py.isNone o = true → py.asBool o = none ∧ py.asFloat o = none ∧
    py.asDuration o = none ∧ py.asDateTime o = none ∧ py.asAddress o = none ∧
      py.asTuple o = none ∧ py.asSequence o = none ∧ py.asSet o = none ∧ py.asDict o = none ∧
        py.asString o = none

/-- `make_value` of the attribute `value` gives the value again. -/
def Agrees (py : PyObjects Obj) (I : Interpreter Ty Obj) (v : Value) : Prop :=
  ∃ o w, I.value v = .ok o ∧ py.MakesValue o w ∧ w.Equal v

/-- One of the conversions up to the one to an address takes the object. -/
def TakenEarly (py : PyObjects Obj) (o : Obj) : Prop :=
  (py.asBool o).isSome ∨ (py.asFloat o).isSome ∨ (py.asDuration o).isSome ∨
    (py.asDateTime o).isSome ∨ (py.asAddress o).isSome

/-- The object is not `None`, and no text of an address that PyO3 takes for a text. -/
def KeepsVariant (py : PyObjects Obj) (P : Platform) (o : Obj) : Prop :=
  py.isNone o = false ∧
    ∀ s, py.asString o = some s → (P.parseAddr s).isSome → TakenEarly py o

namespace PyObjects

variable {py : PyObjects Obj} {I : Interpreter Ty Obj} {P : Platform} {o : Obj} {v w : Value}
  {f : Obj → Outcome PyException Value}

theorem MakesValue.unique (hv : py.MakesValue o v) (hw : py.MakesValue o w) : v = w := by
  obtain ⟨m, hm⟩ := hv
  obtain ⟨n, hn⟩ := hw
  have hm' := extract_of_le (le_max_left m n) hm
  have hn' := extract_of_le (le_max_right m n) hn
  exact Outcome.ok.inj (hm'.symm.trans hn')

@[simp] theorem attempt_none {α : Type} (make : α → Value) : attempt none make = .err .raised := rfl

@[simp] theorem attempt_some {α : Type} (a : α) (make : α → Value) :
    attempt (some a) make = .ok (make a) := rfl

theorem attempt_eq_ok {α : Type} {x : Option α} {make : α → Value} :
    attempt x make = .ok v ↔ ∃ a, x = some a ∧ make a = v := by
  cases x <;> simp

/-- The conversion that a result comes from, with what it found where that matters. -/
inductive Inferred (py : PyObjects Obj) (o : Obj) : Value → Prop
  | boolean (b) : Inferred py o (.boolean b)
  | real (x) : Inferred py o (.real x)
  | timespan {d} : py.asDuration o = some d → Inferred py o (.timespan d)
  | timestamp {t} : py.asDateTime o = some t → Inferred py o (.timestamp t)
  | address (a) : Inferred py o (.address a)
  | subnet (a len) : Inferred py o (.subnet a len)
  | port (n p) : Inferred py o (.port n p)
  | vector (xs) : Inferred py o (.vector xs)
  | set (xs) : Inferred py o (.set (collectBy Value.cmp keepNew xs))
  | table (es) : Inferred py o (.table (collectBy (byKey Value.cmp) insertEntry es))
  | string {s} : py.asString o = some s → Inferred py o (.string s)
  | none : py.isNone o = true → Inferred py o .none
  | enum (s) : Inferred py o (.enum s)
  | record (fs) : Inferred py o (.record fs)

theorem extractSubnet_eq_ok (h : py.extractSubnet o = .ok v) : ∃ a len, v = .subnet a len := by
  obtain ⟨os, -, h⟩ := Outcome.bind_eq_ok.mp h
  split at h
  · obtain ⟨a, -, h⟩ := Outcome.bind_eq_ok.mp h
    obtain ⟨len, -, h⟩ := Outcome.bind_eq_ok.mp h
    exact ⟨a, len, (Outcome.ok.inj h).symm⟩
  · simp at h

theorem extractPort_eq_ok (h : py.extractPort o = .ok v) : ∃ n p, v = .port n p := by
  obtain ⟨os, -, h⟩ := Outcome.bind_eq_ok.mp h
  split at h
  · obtain ⟨n, -, h⟩ := Outcome.bind_eq_ok.mp h
    obtain ⟨p, -, h⟩ := Outcome.bind_eq_ok.mp h
    exact ⟨n, p, (Outcome.ok.inj h).symm⟩
  · simp at h

theorem extractVector_eq_ok (h : py.extractVector f o = .ok v) : ∃ xs, v = .vector xs := by
  obtain ⟨items, -, h⟩ := Outcome.bind_eq_ok.mp h
  obtain ⟨xs, -, h⟩ := Outcome.bind_eq_ok.mp h
  exact ⟨xs, (Outcome.ok.inj h).symm⟩

theorem extractSet_eq_ok (h : py.extractSet f o = .ok v) :
    ∃ xs, v = .set (collectBy Value.cmp keepNew xs) := by
  obtain ⟨items, -, h⟩ := Outcome.bind_eq_ok.mp h
  obtain ⟨xs, -, h⟩ := Outcome.bind_eq_ok.mp h
  exact ⟨xs, (Outcome.ok.inj h).symm⟩

theorem extractTable_eq_ok (h : py.extractTable f o = .ok v) :
    ∃ es, v = .table (collectBy (byKey Value.cmp) insertEntry es) := by
  obtain ⟨items, -, h⟩ := Outcome.bind_eq_ok.mp h
  obtain ⟨es, -, h⟩ := Outcome.bind_eq_ok.mp h
  exact ⟨es, (Outcome.ok.inj h).symm⟩

theorem extractEnum_eq_ok (h : py.extractEnum o = .ok v) : ∃ s, v = .enum s := by
  obtain ⟨b, -, h⟩ := Outcome.bind_eq_ok.mp h
  obtain ⟨name, -, h⟩ := Outcome.bind_eq_ok.mp h
  obtain ⟨s, -, h⟩ := Outcome.bind_eq_ok.mp h
  exact ⟨s, (Outcome.ok.inj h).symm⟩

theorem extractRecord_eq_ok (h : py.extractRecord f o = .ok v) : ∃ fs, v = .record fs := by
  obtain ⟨x, -, h⟩ := Outcome.bind_eq_ok.mp h
  obtain ⟨d, -, h⟩ := Outcome.bind_eq_ok.mp h
  obtain ⟨items, -, h⟩ := Outcome.bind_eq_ok.mp h
  obtain ⟨fs, -, h⟩ := Outcome.bind_eq_ok.mp h
  exact ⟨_, (Outcome.ok.inj h).symm⟩

theorem inferred_of_ok (hvalue : py.asValue o = none) (h : py.infer f o = .ok v) :
    Inferred py o v := by
  rcases Outcome.firstOk_eq_ok h with hlast | hmem
  · simp [unsupported] at hlast
  simp only [earlier, hvalue, attempt_none, List.cons_append, List.nil_append, List.mem_cons,
    reduceCtorEq, false_or, List.not_mem_nil, or_false] at hmem
  rcases hmem with h | h | h | h | h | h | h | h | h | h | h | h | h | h
  · obtain ⟨b, -, rfl⟩ := attempt_eq_ok.mp h.symm
    exact .boolean b
  · obtain ⟨x, -, rfl⟩ := attempt_eq_ok.mp h.symm
    exact .real x
  · obtain ⟨d, hd, rfl⟩ := attempt_eq_ok.mp h.symm
    exact .timespan hd
  · obtain ⟨t, ht, rfl⟩ := attempt_eq_ok.mp h.symm
    exact .timestamp ht
  · obtain ⟨a, -, rfl⟩ := attempt_eq_ok.mp h.symm
    exact .address a
  · obtain ⟨a, len, rfl⟩ := extractSubnet_eq_ok h.symm
    exact .subnet a len
  · obtain ⟨n, p, rfl⟩ := extractPort_eq_ok h.symm
    exact .port n p
  · obtain ⟨xs, rfl⟩ := extractVector_eq_ok h.symm
    exact .vector xs
  · obtain ⟨xs, rfl⟩ := extractSet_eq_ok h.symm
    exact .set xs
  · obtain ⟨es, rfl⟩ := extractTable_eq_ok h.symm
    exact .table es
  · obtain ⟨s, hs, rfl⟩ := attempt_eq_ok.mp h.symm
    exact .string hs
  · split_ifs at h with hnone
    obtain rfl := Outcome.ok.inj h
    exact .none hnone
  · obtain ⟨s, rfl⟩ := extractEnum_eq_ok h.symm
    exact .enum s
  · obtain ⟨fs, rfl⟩ := extractRecord_eq_ok h.symm
    exact .record fs

theorem MakesValue.inferred (hvalue : py.asValue o = none) (h : py.MakesValue o v) :
    Inferred py o v := by
  obtain ⟨depth, h⟩ := h
  cases depth with
  | zero => simp [extract] at h
  | succ depth => exact inferred_of_ok hvalue h

/-! Where a conversion before the others takes the object. -/

theorem extract_of_asValue (h : py.asValue o = some v) (depth : ℕ) :
    py.extract (depth + 1) o = .ok v := by
  simp [extract, infer, earlier, h, Outcome.firstOk]

/-- Early conversions do not make texts. -/
theorem TakenEarly.not_string {s : String} (hvalue : py.asValue o = none) (he : TakenEarly py o)
    (h : py.MakesValue o v) : v ≠ .string s := by
  obtain ⟨depth, h⟩ := h
  cases depth with
  | zero => simp [extract] at h
  | succ depth =>
    rintro rfl
    rw [extract, infer, earlier] at h
    cases hb : py.asBool o with
    | some b => simp [hvalue, hb, Outcome.firstOk] at h
    | none =>
    cases hx : py.asFloat o with
    | some x => simp [hvalue, hb, hx, Outcome.firstOk] at h
    | none =>
    cases hd : py.asDuration o with
    | some d => simp [hvalue, hb, hx, hd, Outcome.firstOk] at h
    | none =>
    cases ht : py.asDateTime o with
    | some t => simp [hvalue, hb, hx, hd, ht, Outcome.firstOk] at h
    | none =>
    cases ha : py.asAddress o with
    | some a => simp [hvalue, hb, hx, hd, ht, ha, Outcome.firstOk] at h
    | none => simp [TakenEarly, hb, hx, hd, ht, ha] at he

theorem not_takenEarly_iff : ¬ TakenEarly py o ↔ py.asBool o = none ∧ py.asFloat o = none ∧
    py.asDuration o = none ∧ py.asDateTime o = none ∧ py.asAddress o = none := by
  simp [TakenEarly]

/-- Past the conversion to an address. -/
theorem extract_of_not_early (hvalue : py.asValue o = none) (he : ¬ TakenEarly py o) (depth : ℕ) :
    py.extract (depth + 1) o = .firstOk (py.unsupported o)
      [py.extractSubnet o, py.extractPort o, py.extractVector (py.extract depth) o,
        py.extractSet (py.extract depth) o, py.extractTable (py.extract depth) o,
        attempt (py.asString o) .string, if py.isNone o then .ok .none else .err .raised,
        py.extractEnum o, py.extractRecord (py.extract depth) o] := by
  obtain ⟨hb, hx, hd, ht, ha⟩ := not_takenEarly_iff.mp he
  rw [extract, infer, earlier, hvalue, hb, hx, hd, ht, ha]
  rfl

/-- Past the conversions to containers. -/
theorem extract_of_no_container (hvalue : py.asValue o = none) (he : ¬ TakenEarly py o)
    (htuple : py.asTuple o = none) (hseq : py.asSequence o = none) (hset : py.asSet o = none)
    (hdict : py.asDict o = none) (depth : ℕ) :
    py.extract (depth + 1) o = .firstOk (py.unsupported o)
      [attempt (py.asString o) .string, if py.isNone o then .ok .none else .err .raised,
        py.extractEnum o, py.extractRecord (py.extract depth) o] := by
  rw [extract_of_not_early hvalue he, extractSubnet, extractPort, extractVector, extractSet, extractTable,
    htuple, hseq, hset, hdict]
  rfl

/-! What the attribute hands out, one variant at a time. -/

/-- What is left to show once the attribute has made its object. -/
theorem agrees_of_answers (h : PyO3 py I P) (hv : Handed py v)
    (hmake : ∀ o, py.asValue o = none → Answers py I P v.value o →
      ∃ w, py.MakesValue o w ∧ w.Equal v) : Agrees py I v := by
  obtain ⟨o, ho⟩ := h.makes v hv
  obtain ⟨w, hw, heq⟩ := hmake o (h.asValue_ofNative _ _ ho) (h.answers _ _ ho)
  exact ⟨o, w, by simp [Interpreter.value, ho, Outcome.ofOption], hw, heq⟩

/-- Instances of `Value` are taken as they are, on a stack of any depth. -/
theorem mapM_ofValue (h : PyO3 py I P) (depth : ℕ) (xs : List Value) :
    (xs.map I.ofValue).mapM (py.extract (depth + 1)) = .ok xs := by
  rw [List.mapM_map, Outcome.mapM_eq_ok]
  exact List.forall₂_same.mpr fun x _ => extract_of_asValue (h.asValue_ofValue x) depth

theorem mapM_entries (h : PyO3 py I P) (depth : ℕ) (es : List (Value × Value)) :
    (es.map fun e => (I.ofValue e.1, I.ofValue e.2)).mapM (extractEntry (py.extract (depth + 1))) =
      .ok es := by
  rw [List.mapM_map, Outcome.mapM_eq_ok]
  refine List.forall₂_same.mpr fun e _ => ?_
  simp [extractEntry, extract_of_asValue (h.asValue_ofValue _)]

theorem agrees_subnet (h : PyO3 py I P) (a : IpAddr) (len : UInt8) : Agrees py I (.subnet a len) := by
  refine agrees_of_answers h trivial fun o hvalue hanswers => ?_
  obtain ⟨⟨hb, hx, hd, ht⟩, ha, os, htuple, -, hos⟩ := hanswers
  obtain ⟨o₁, os', ho₁, hos', rfl⟩ := List.forall₂_cons_left_iff.mp hos
  obtain ⟨o₂, os', ho₂, hnil, rfl⟩ := List.forall₂_cons_left_iff.mp hos'
  obtain rfl := List.forall₂_nil_left_iff.mp hnil
  have haddr : py.asAddress o₁ = some a := (h.answers _ _ ho₁).2
  have hlen : py.asU8 o₂ = some len := (h.answers _ _ ho₂).2.1 len rfl
  refine ⟨.subnet a len, ⟨1, ?_⟩, .refl _⟩
  rw [extract_of_not_early hvalue (not_takenEarly_iff.mpr ⟨hb, hx, hd, ht, ha⟩)]
  simp [extractSubnet, htuple, haddr, hlen, Outcome.ofOption, Outcome.firstOk]

/-- A number is no address, so that ports are no subnets. -/
theorem agrees_port (h : PyO3 py I P) (n : UInt16) (p : Protocol) : Agrees py I (.port n p) := by
  refine agrees_of_answers h trivial fun o hvalue hanswers => ?_
  obtain ⟨⟨hb, hx, hd, ht⟩, ha, os, htuple, -, hos⟩ := hanswers
  obtain ⟨o₁, os', ho₁, hos', rfl⟩ := List.forall₂_cons_left_iff.mp hos
  obtain ⟨o₂, os', ho₂, hnil, rfl⟩ := List.forall₂_cons_left_iff.mp hos'
  obtain rfl := List.forall₂_nil_left_iff.mp hnil
  have haddr : py.asAddress o₁ = none := (h.answers _ _ ho₁).1
  have hnum : py.asU16 o₁ = some n := (h.answers _ _ ho₁).2.2 n rfl
  have hproto : py.asProtocol o₂ = some p := h.answers _ _ ho₂
  refine ⟨.port n p, ⟨1, ?_⟩, .refl _⟩
  rw [extract_of_not_early hvalue (not_takenEarly_iff.mpr ⟨hb, hx, hd, ht, ha⟩)]
  simp [extractSubnet, extractPort, htuple, haddr, hnum, hproto, Outcome.ofOption, Outcome.firstOk]

theorem agrees_vector (h : PyO3 py I P) (xs : List Value) : Agrees py I (.vector xs) := by
  refine agrees_of_answers h trivial fun o hvalue hanswers => ?_
  obtain ⟨⟨hb, hx, hd, ht⟩, ha, htuple, hseq⟩ := hanswers
  refine ⟨.vector xs, ⟨2, ?_⟩, .refl _⟩
  rw [extract_of_not_early hvalue (not_takenEarly_iff.mpr ⟨hb, hx, hd, ht, ha⟩)]
  simp [extractSubnet, extractPort, extractVector, htuple, hseq, mapM_ofValue h, Outcome.ofOption,
    Outcome.firstOk]

theorem agrees_set (h : PyO3 py I P) {xs : List Value} (hxs : Ascending Value.cmp xs) :
    Agrees py I (.set xs) := by
  refine agrees_of_answers h trivial fun o hvalue hanswers => ?_
  obtain ⟨⟨hb, hx, hd, ht⟩, ha, htuple, hseq, hset⟩ := hanswers
  obtain ⟨ys, hperm, hset⟩ := hset hxs
  refine ⟨.set xs, ⟨2, ?_⟩, .refl _⟩
  rw [extract_of_not_early hvalue (not_takenEarly_iff.mpr ⟨hb, hx, hd, ht, ha⟩)]
  simp [extractSubnet, extractPort, extractVector, extractSet, htuple, hseq, hset, mapM_ofValue h,
    collectBy_of_perm keepNew_picks hperm hxs, Outcome.ofOption, Outcome.firstOk]

theorem agrees_table (h : PyO3 py I P) {es : List (Value × Value)}
    (hes : Ascending (byKey Value.cmp) es) : Agrees py I (.table es) := by
  refine agrees_of_answers h trivial fun o hvalue hanswers => ?_
  obtain ⟨⟨hb, hx, hd, ht⟩, ha, htuple, hseq, hset, hdict⟩ := hanswers
  obtain ⟨fs, hperm, hdict⟩ := hdict hes
  have hsymm : ∀ {e f : Value × Value}, byKey Value.cmp f e ≠ .eq → byKey Value.cmp e f ≠ .eq :=
    fun hfe he => hfe (Std.OrientedCmp.eq_symm he)
  have hcollect : collectBy (byKey Value.cmp) insertEntry fs = es := by
    rw [collectBy_pick keepNew_picks (hperm.symm.pairwise hes.distinct hsymm)]
    exact collectBy_of_perm keepNew_picks hperm hes
  refine ⟨.table es, ⟨2, ?_⟩, .refl _⟩
  rw [extract_of_not_early hvalue (not_takenEarly_iff.mpr ⟨hb, hx, hd, ht, ha⟩)]
  simp [extractSubnet, extractPort, extractVector, extractSet, extractTable, htuple, hseq, hset, hdict,
    mapM_entries h, hcollect, Outcome.ofOption, Outcome.firstOk]

/-- What a text is inferred as. -/
theorem makesValue_text {s : String} (hvalue : py.asValue o = none)
    (hanswers : Answers py I P (.str s) o) :
    py.MakesValue o (((P.parseAddr s).map .address).getD (.string s)) := by
  obtain ⟨⟨hb, hx, hd, ht⟩, ha, htuple, hseq, hset, hdict, hs⟩ := hanswers
  refine ⟨1, ?_⟩
  cases hparse : P.parseAddr s with
  | some a => simp [extract, infer, earlier, hvalue, hb, hx, hd, ht, ha, hparse, Outcome.firstOk]
  | none =>
    have he : ¬ TakenEarly py o := not_takenEarly_iff.mpr ⟨hb, hx, hd, ht, ha.trans hparse⟩
    rw [extract_of_no_container hvalue he htuple hseq hset hdict, hs]
    rfl

theorem agrees_string (h : PyO3 py I P) {s : String} : Agrees py I (.string s) ↔ P.parseAddr s = none := by
  refine ⟨?_, fun hs => agrees_of_answers h trivial fun o hvalue hanswers => ?_⟩
  · rintro ⟨o, w, ho, hw, heq⟩
    have ho' : I.ofNative (.str s) = some o := Outcome.ofOption_eq_ok.mp ho
    have hmake := makesValue_text (h.asValue_ofNative _ _ ho') (h.answers _ _ ho')
    obtain rfl := hw.unique hmake
    cases hparse : P.parseAddr s with
    | none => rfl
    | some a => simpa [hparse, Value.discriminant] using heq.discriminant
  · exact ⟨.string s, by simpa [hs] using makesValue_text hvalue hanswers, .refl _⟩

/-- `None` hands out an empty tuple, which is inferred as an empty vector. -/
theorem none_not_agrees (h : PyO3 py I P) : ¬ Agrees py I .none := by
  rintro ⟨o, w, ho, hw, heq⟩
  have ho' : I.ofNative (.tuple []) = some o := Outcome.ofOption_eq_ok.mp ho
  have hvalue := h.asValue_ofNative _ _ ho'
  obtain ⟨⟨hb, hx, hd, ht⟩, ha, os, htuple, hseq, hos⟩ := h.answers _ _ ho'
  obtain rfl := List.forall₂_nil_left_iff.mp hos
  have hmake : py.MakesValue o (.vector []) := by
    refine ⟨1, ?_⟩
    rw [extract_of_not_early hvalue (not_takenEarly_iff.mpr ⟨hb, hx, hd, ht, ha⟩)]
    simp [extractSubnet, extractPort, extractVector, htuple, hseq, Outcome.ofOption, Outcome.firstOk]
  obtain rfl := hw.unique hmake
  simpa [Value.discriminant] using heq.discriminant

/-- The entries of an inferred table are in the order of their keys. -/
theorem ascending_entries (es : List (Value × Value)) :
    Ascending (byKey Value.cmp) (collectBy (byKey Value.cmp) insertEntry es) := by
  have hkeys : List.Forall₂ (fun k e => k = e.1) (collectBy Value.cmp keepOld (es.map Prod.fst))
      (collectBy (byKey Value.cmp) insertEntry es) := by
    refine collectBy_congr ?_ ?_ (List.forall₂_map_left_iff.mpr (List.forall₂_same.mpr fun _ _ => rfl))
    · rintro _ _ e f rfl rfl
      rfl
    · rintro _ _ e f rfl rfl
      rfl
  refine pairwise_of_forall₂ ?_ hkeys (collectBy_ascending (fun _ _ => .inl rfl) _)
  rintro _ _ e f rfl rfl hlt
  exact hlt

theorem Inferred.agrees (h : PyO3 py I P) (hi : Inferred py o v) (henum : ∀ s, v ≠ .enum s)
    (hrecord : ∀ fs, v ≠ .record fs) (hnone : py.isNone o = false)
    (htext : ∀ s, v = .string s → P.parseAddr s = Option.none) : Agrees py I v := by
  cases hi with
  | boolean b =>
    refine agrees_of_answers h trivial fun o hvalue hb => ⟨.boolean b, ⟨1, ?_⟩, .refl _⟩
    have hb : py.asBool o = some b := hb
    simp [extract, infer, earlier, hvalue, hb, Outcome.firstOk]
  | real x =>
    refine agrees_of_answers h trivial fun o hvalue hanswers => ⟨.real x, ⟨1, ?_⟩, .refl _⟩
    obtain ⟨hb, hx⟩ := hanswers
    simp [extract, infer, earlier, hvalue, hb, hx, Outcome.firstOk]
  | @timespan d hd =>
    refine agrees_of_answers h ⟨o, hd⟩ fun o' hvalue hanswers => ⟨.timespan d, ⟨1, ?_⟩, .refl _⟩
    obtain ⟨hb, hx, hd'⟩ := hanswers
    simp [extract, infer, earlier, hvalue, hb, hx, hd' ⟨o, hd⟩, Outcome.firstOk]
  | @timestamp t ht =>
    refine agrees_of_answers h ⟨o, ht⟩ fun o' hvalue hanswers => ?_
    obtain ⟨hb, hx, hd, ht'⟩ := hanswers
    obtain ⟨t', ht', hnanos⟩ := ht' ⟨o, ht⟩
    refine ⟨.timestamp t', ⟨1, ?_⟩, ?_⟩
    · simp [extract, infer, earlier, hvalue, hb, hx, hd, ht', Outcome.firstOk]
    · simp [Value.Equal, Value.cmp, hnanos]
  | address a =>
    refine agrees_of_answers h trivial fun o hvalue hanswers => ⟨.address a, ⟨1, ?_⟩, .refl _⟩
    obtain ⟨⟨hb, hx, hd, ht⟩, ha⟩ := hanswers
    simp [extract, infer, earlier, hvalue, hb, hx, hd, ht, ha, Outcome.firstOk]
  | subnet a len => exact agrees_subnet h a len
  | port n p => exact agrees_port h n p
  | vector xs => exact agrees_vector h xs
  | set xs => exact agrees_set h (collectBy_ascending keepNew_picks xs)
  | table es => exact agrees_table h (ascending_entries es)
  | string hs => exact (agrees_string h).mpr (htext _ rfl)
  | none hn => simp [hn] at hnone
  | enum s => exact absurd rfl (henum s)
  | record fs => exact absurd rfl (hrecord fs)

theorem makesValue_none (h : PyO3 py I P) (hvalue : py.asValue o = none) (hnone : py.isNone o = true) :
    py.MakesValue o .none := by
  obtain ⟨hb, hx, hd, ht, ha, htuple, hseq, hset, hdict, hs⟩ := h.none o hnone
  have he : ¬ TakenEarly py o := not_takenEarly_iff.mpr ⟨hb, hx, hd, ht, ha⟩
  refine ⟨1, ?_⟩
  rw [extract_of_no_container hvalue he htuple hseq hset hdict, hs, if_pos hnone]
  rfl

theorem makesValue_string (h : PyO3 py I P) (hvalue : py.asValue o = none)
    (he : ¬ TakenEarly py o) {s : String} (hs : py.asString o = some s) : py.MakesValue o (.string s) := by
  obtain ⟨htuple, hseq, hset, hdict⟩ := h.text o s hs
  refine ⟨1, ?_⟩
  rw [extract_of_no_container hvalue he htuple hseq hset hdict, hs]
  rfl

/-- `make_value` and the attribute `value` agree on every object but `None` and texts that spell
an address and are not taken for one. -/
theorem value_agrees_iff (h : PyO3 py I P) (hvalue : py.asValue o = none) (hmake : py.MakesValue o v)
    (henum : ∀ s, v ≠ .enum s) (hrecord : ∀ fs, v ≠ .record fs) :
    Agrees py I v ↔ KeepsVariant py P o := by
  refine ⟨fun hagrees => ⟨?_, fun s hs hparse => ?_⟩, ?_⟩
  · by_contra hnone
    rw [Bool.not_eq_false] at hnone
    obtain rfl := hmake.unique (makesValue_none h hvalue hnone)
    exact none_not_agrees h hagrees
  · by_contra he
    obtain rfl := hmake.unique (makesValue_string h hvalue he hs)
    simp [(agrees_string h).mp hagrees] at hparse
  · rintro ⟨hnone, htext⟩
    refine (hmake.inferred hvalue).agrees h henum hrecord hnone ?_
    rintro s rfl
    by_contra hparse
    have hs : py.asString o = some s := by
      cases hmake.inferred hvalue with
      | string hs => exact hs
    have he := htext s hs (Option.isSome_iff_ne_none.mpr hparse)
    exact TakenEarly.not_string hvalue he hmake rfl

end PyObjects

end

/-- The objects that values hand out, the values themselves, and `None`. -/
inductive Made where
  | value (v : Value)
  | native (n : Native)
  | none

namespace Made

def objects : PyObjects Made where
  asValue
    | .value v => some v
    | _ => Option.none
  asBool
    | .native (.bool b) => some b
    | _ => Option.none
  asFloat
    | .native (.float x) => some x
    | _ => Option.none
  asDuration
    | .native (.timedelta d) => some d
    | _ => Option.none
  asDateTime
    | .native (.datetime t) => some t
    | _ => Option.none
  asAddress
    | .native (.address a) => some a
    | .native (.str s) => Sample.utcPlatform.parseAddr s
    | _ => Option.none
  asTuple
    | .native (.tuple ns) => some (ns.map .native)
    | _ => Option.none
  asU8
    | .native (.int n) => if 0 ≤ n ∧ n < 256 then some (.ofNat n.toNat) else Option.none
    | _ => Option.none
  asU16
    | .native (.int n) => if 0 ≤ n ∧ n < 65536 then some (.ofNat n.toNat) else Option.none
    | _ => Option.none
  asProtocol
    | .native (.protocol p) => some p
    | _ => Option.none
  asSequence
    | .native (.tuple ns) => some (ns.map .native)
    | .native (.list xs) => some (xs.map .value)
    | _ => Option.none
  asSet
    | .native (.set xs) => some (xs.map .value)
    | _ => Option.none
  asDict
    | .native (.dict es) => some (es.map fun e => (.value e.1, .value e.2))
    | _ => Option.none
  asString
    | .native (.str s) => some s
    | _ => Option.none
  isNone
    | .none => true
    | _ => false
  isEnum _ := some false
  getName _ := Option.none
  getDict _ := some Option.none
  repr _ := "<object>"

def interpreter : Interpreter Empty Made where
  ofValue := .value
  ofNative n := some (.native n)
  noneObject := .none
  list _ := .none
  frozenSet _ := Option.none
  emptyDict := .none
  setItem _ _ _ := Option.none
  getItem _ _ := Option.none
  call1 _ _ := Option.none
  call _ _ := Option.none
  display _ := "<class>"
  debug _ := "<value>"

theorem answers (n : Native) : Answers objects interpreter Sample.utcPlatform n (.native n) := by
  cases n with
  | bool b => rfl
  | int n =>
    refine ⟨rfl, ?_, ?_⟩
    · rintro k rfl
      have := k.toNat_lt
      simp [objects]
      omega
    · rintro k rfl
      have := k.toNat_lt
      simp [objects]
      omega
  | float x => exact ⟨rfl, rfl⟩
  | str s => exact ⟨⟨rfl, rfl, rfl, rfl⟩, rfl, rfl, rfl, rfl, rfl, rfl⟩
  | timedelta d => exact ⟨rfl, rfl, fun _ => rfl⟩
  | datetime t => exact ⟨rfl, rfl, rfl, fun _ => ⟨t, rfl, rfl⟩⟩
  | address a => exact ⟨⟨rfl, rfl, rfl, rfl⟩, rfl⟩
  | protocol p => rfl
  | tuple ns =>
    refine ⟨⟨rfl, rfl, rfl, rfl⟩, rfl, ns.map .native, rfl, rfl, ?_⟩
    exact List.forall₂_map_right_iff.mpr (List.forall₂_same.mpr fun _ _ => rfl)
  | list xs => exact ⟨⟨rfl, rfl, rfl, rfl⟩, rfl, rfl, rfl⟩
  | set xs => exact ⟨⟨rfl, rfl, rfl, rfl⟩, rfl, rfl, rfl, fun _ => ⟨xs, .refl _, rfl⟩⟩
  | dict es => exact ⟨⟨rfl, rfl, rfl, rfl⟩, rfl, rfl, rfl, rfl, fun _ => ⟨es, .refl _, rfl⟩⟩
  | fields fs => trivial

theorem pyO3 : PyO3 objects interpreter Sample.utcPlatform where
  asValue_ofValue _ := rfl
  makes v _ := ⟨.native v.value, rfl⟩
  asValue_ofNative _ o ho := by
    obtain rfl := Option.some.inj ho
    rfl
  answers n o ho := by
    obtain rfl := Option.some.inj ho
    exact answers n
  text o s hs := by
    cases o with
    | native n => cases n <;> simp [objects] at hs ⊢
    | _ => simp [objects] at hs
  none o ho := by
    cases o with
    | none => simp [objects]
    | _ => simp [objects] at ho

/-- `("127.0.0.1", 8)` as an address and a number. -/
def network : Made := .native (.tuple [.address Sample.loopback, .int 8])

theorem network_agrees : Agrees objects interpreter (.subnet Sample.loopback 8) :=
  (PyObjects.value_agrees_iff (o := network) pyO3 rfl ⟨1, rfl⟩ (by simp) (by simp)).mpr
    ⟨rfl, by simp [network, objects]⟩

/-- `make_value(None).value` is an empty tuple, and no `None` any more. -/
theorem none_comes_out_empty :
    ¬ (objects.MakesValue .none .none → Agrees objects interpreter .none) := by
  intro h
  exact PyObjects.none_not_agrees pyO3 (h ⟨1, rfl⟩)

end Made

end ZWS.Python
