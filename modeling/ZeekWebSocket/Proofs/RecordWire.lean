import ZeekWebSocket.Proofs.Terms

/-! A record loses its field names on the wire, and is then decoded by position. It is decoded as
before by exactly those dataclasses that declare their fields in the order of its keys, and that
put no others where Python merges what was two values before the wire or one after it. Where a
class does not, a record is made that an interpreter which only writes down what it is asked to do
tells from its wire form. -/

namespace ZWS.Python

open Base

open Interpreter Term

namespace Classes

variable {Ty : Type} {C : Classes Ty} {D : Ty}

def SurvivesFor {Obj : Type} (py : Interpreter Ty Obj) (C : Classes Ty) (T : Ty) : Prop :=
  ∀ fs w, (Value.record fs).Canonical → C.Suits (.dataclass T) (.record fs) →
    Value.OnWire (.record fs) w → ∀ kw, py.CallsWith C T (.record fs) kw ↔ py.CallsWith C T w kw

/-- Every record with the fields of the dataclass calls it with the same keyword arguments before
and after the wire, whatever the classes do that Python lets them do. -/
def SurvivesWire (C : Classes Ty) (T : Ty) : Prop :=
  ∀ (Obj : Type) (py : Interpreter Ty Obj), py.Lawful C → SurvivesFor py C T

/-! An empty vector is made into something under every hint. -/

def blank : Value := .vector []

theorem blank_plain : blank.Canonical ∧ blank.RecordFree ∧ Value.OnWire blank blank := by
  refine ⟨by decide, Value.forall_parts_vector.mpr ⟨by simp, by simp⟩, ?_⟩
  exact ⟨.vector [], rfl, rfl⟩

theorem none_plain : Value.none.Canonical ∧ Value.none.RecordFree :=
  ⟨by decide, by simp [Value.RecordFree, Value.parts]⟩

theorem classifyType_names {ty E : Ty} (h : E ∈ (C.classifyType ty).names) :
    C.isDataclass E = true := by
  unfold classifyType at h
  split at h
  · simp [FieldHint.names] at h
  · split at h
    · simp [FieldHint.names] at h
    · split at h
      · next hd =>
        obtain rfl := List.mem_singleton.mp h
        exact hd
      · simp [FieldHint.names] at h

theorem classifyGenericArg_names {arg : Option Ty} {E : Ty}
    (h : E ∈ (C.classifyGenericArg arg).names) : C.isDataclass E = true := by
  cases arg with
  | none => simp [classifyGenericArg, FieldHint.names] at h
  | some ty => exact classifyType_names h

theorem fieldHint_names {a : Annotation Ty} {E : Ty} (h : E ∈ (C.fieldHint a).names) :
    C.isDataclass E = true := by
  cases a with
  | type ty => exact classifyType_names h
  | union args =>
    simp only [fieldHint] at h
    split at h
    · exact classifyGenericArg_names h
    · simp [FieldHint.names] at h
  | list elem => exact classifyGenericArg_names h
  | set elem => exact classifyGenericArg_names h
  | dict key val =>
    rcases List.mem_append.mp h with h | h <;> exact classifyGenericArg_names h
  | other => simp [fieldHint, FieldHint.names] at h

theorem names_of_leadsTo {h : FieldHint Ty} {E : Ty} (hE : E ∈ C.leadsTo h) : E ∈ h.names := by
  cases h with
  | set elem => exact (List.mem_filter.mp hE).1
  | table key val =>
    simp only [leadsTo] at hE
    split at hE
    · exact List.mem_append_right _ hE
    · simp at hE
  | _ => exact hE

theorem names_isDataclass {field : String × FieldHint Ty} (hf : field ∈ C.buildFieldHints D) {E : Ty}
    (hE : E ∈ field.2.names) : C.isDataclass E = true := by
  obtain ⟨f, -, rfl⟩ := List.mem_map.mp hf
  exact fieldHint_names hE

section
variable {asRecord : Ty → Value → Outcome PyException (Option (Term Ty))}

theorem convert_blank {h : FieldHint Ty}
    (hrec : ∀ E ∈ h.names, ∃ o, asRecord E blank = .ok (some o)) :
    ∃ o, (symbolic C).convertField asRecord h blank = .ok o := by
  induction h with
  | dataclass E =>
    obtain ⟨o, ho⟩ := hrec E (by simp [FieldHint.names])
    exact ⟨o, by simp [convertField, ho, Outcome.ofOption]⟩
  | optional inner ih => exact ih hrec
  | _ => exact ⟨_, rfl⟩

end

theorem asRecord_blank (hD : C.isDataclass D = true) (n : ℕ) :
    (symbolic C).asRecord C (n + 1) D blank = .ok (some (.object D [])) := by
  simp [Interpreter.asRecord, kwargs, hD, typedValues, blank, symbolic, Outcome.ofOption]

theorem convert_blank_field {field : String × FieldHint Ty} (hf : field ∈ C.buildFieldHints D) (n : ℕ) :
    ∃ o, (symbolic C).convertField ((symbolic C).asRecord C (n + 1)) field.2 blank = .ok o :=
  convert_blank fun E hE => ⟨.object E [], asRecord_blank (names_isDataclass hf hE) n⟩

theorem convert_blank_ne_none {h : FieldHint Ty} {n : ℕ} {o : Term Ty}
    (ho : (symbolic C).convertField ((symbolic C).asRecord C n) h blank = .ok o) : o ≠ .none := by
  induction h with
  | dataclass E =>
    obtain ⟨m, kw, -, -, hcall⟩ := convert_dataclass.mp ho
    obtain rfl := Option.some.inj hcall
    simp
  | optional inner ih => exact ih ho
  | _ =>
    obtain rfl := Outcome.ok.inj ho
    simp [symbolic]

/-- Made into something else than an empty vector is. -/
def probe : FieldHint Ty → Value
  | .optional _ => .none
  | _ => .vector [.vector []]

theorem convert_probe_field {field : String × FieldHint Ty} (hf : field ∈ C.buildFieldHints D) (n : ℕ) :
    ∃ o, (symbolic C).convertField ((symbolic C).asRecord C (n + 2)) field.2 (probe field.2) = .ok o := by
  obtain ⟨name, h⟩ := field
  have hnames : ∀ E ∈ h.names, C.isDataclass E = true := fun E hE => names_isDataclass hf hE
  cases h with
  | dataclass E =>
    have hE : C.isDataclass E = true := hnames E (by simp [FieldHint.names])
    obtain ⟨kw, hkw⟩ : ∃ kw, (symbolic C).kwargs ((symbolic C).asRecord C (n + 1)) C E
        (.vector [.vector []]) = .ok (some kw) := by
      cases hF : C.buildFieldHints E with
      | nil => exact ⟨[], by simp [kwargs, hE, typedValues, hF]⟩
      | cons f fs =>
        have hf : f ∈ C.buildFieldHints E := by simp [hF]
        obtain ⟨o, ho⟩ := convert_blank_field hf n
        exact ⟨[(f.1, o)], by
          simp [kwargs, hE, typedValues, hF, List.mapM_cons, convertArg,
            show Value.vector [] = blank from rfl, ho]⟩
    exact ⟨.object E kw, convert_dataclass.mpr ⟨n + 1, kw, rfl, hkw, rfl⟩⟩
  | list elem =>
    obtain ⟨o, ho⟩ : ∃ o,
        (symbolic C).convertField ((symbolic C).asRecord C (n + 2)) elem blank = .ok o :=
      convert_blank fun E hE => ⟨.object E [], asRecord_blank (hnames E hE) (n + 1)⟩
    refine ⟨.list [o], ?_⟩
    simp [convertField, probe, show Value.vector [] = blank from rfl, ho]
    rfl
  | _ => exact ⟨_, rfl⟩

theorem probe_ne_blank {h : FieldHint Ty} (hh : ¬ C.Fieldless h) {n m : ℕ} {o : Term Ty}
    (hprobe : (symbolic C).convertField ((symbolic C).asRecord C n) h (probe h) = .ok o) :
    (symbolic C).convertField ((symbolic C).asRecord C m) h blank ≠ .ok o := by
  intro hblank
  cases h with
  | dataclass E =>
    obtain ⟨n', kw, -, hkw, hcall⟩ := convert_dataclass.mp hprobe
    obtain ⟨m', kw', -, hkw', hcall'⟩ := convert_dataclass.mp hblank
    obtain rfl := Option.some.inj hcall
    obtain ⟨-, rfl⟩ := Term.object.inj (Option.some.inj hcall')
    obtain ⟨-, args, hargs, hmap⟩ := kwargs_eq_some.mp hkw
    obtain ⟨-, args', hargs', hmap'⟩ := kwargs_eq_some.mp hkw'
    obtain rfl := Option.some.inj hargs
    obtain rfl := Option.some.inj hargs'
    have hlen := (Outcome.mapM_eq_ok.mp hmap).length_eq
    have hlen' := (Outcome.mapM_eq_ok.mp hmap').length_eq
    have hfields : (C.buildFieldHints E).length = 0 := by
      simp only [List.length_map, List.length_zip] at hlen hlen'
      simp at hlen hlen'
      omega
    exact hh ⟨E, rfl, by simpa [buildFieldHints] using hfields⟩
  | optional inner =>
    obtain rfl := Outcome.ok.inj hprobe
    exact convert_blank_ne_none (h := inner) hblank rfl
  | list elem =>
    obtain ⟨os, hos, ho⟩ := Outcome.bind_eq_ok.mp hprobe
    obtain rfl := Outcome.ok.inj ho
    have hlen := (Outcome.mapM_eq_ok.mp hos).length_eq
    have hnil : os = [] := by
      have := Outcome.ok.inj hblank
      simpa [symbolic] using this
    simp [hnil] at hlen
  | _ =>
    obtain rfl := Outcome.ok.inj hprobe
    have heq := Outcome.ok.inj hblank
    have hlist : Quot.mk Native.Alike (.list []) ≠ Quot.mk Native.Alike (.list [.vector []]) :=
      Native.alike_ne (by decide)
    have hcode : (Value.vector []).code ≠ (Value.vector [.vector []]).code := by decide
    simp [symbolic, probe, blank, Value.value, hlist, hcode] at heq

section
variable {Obj : Type} {py : Interpreter Ty Obj} {asRecord : Ty → Value → Outcome PyException (Option Obj)}
  {y y' : String → Value} {kw : List (String × Obj)}

theorem kwargs_positions (hD : C.isDataclass D = true) {v : Value}
    {held : (String × FieldHint Ty) × String → Value}
    (hv : typedValues C D v = some ((C.positions D).map fun p => (p.1.1, held p, p.1.2))) :
    py.kwargs asRecord C D v = .ok (some kw) ↔
      List.Forall₂ (fun p kv => py.convertField asRecord p.1.2 (held p) = .ok kv.2 ∧ p.1.1 = kv.1)
        (C.positions D) kw := by
  rw [kwargs_eq_some, hv]
  simp only [hD, true_and, Option.some.injEq, exists_eq_left', Outcome.mapM_eq_ok,
    List.forall₂_map_left_iff, convertArg_eq_ok]

theorem kwargs_record (hD : C.isDataclass D = true) :
    py.kwargs asRecord C D (C.record D y) = .ok (some kw) ↔
      List.Forall₂ (fun p kv => py.convertField asRecord p.1.2 (y p.1.1) = .ok kv.2 ∧ p.1.1 = kv.1)
        (C.positions D) kw :=
  kwargs_positions hD (typedValues_record y)

theorem kwargs_wire (hD : C.isDataclass D = true) :
    py.kwargs asRecord C D (C.wire D y) = .ok (some kw) ↔
      List.Forall₂ (fun p kv => py.convertField asRecord p.1.2 (y p.2) = .ok kv.2 ∧ p.1.1 = kv.1)
        (C.positions D) kw :=
  kwargs_positions hD (typedValues_wire y)

/-- Values for the fields of a class and their wire forms. -/
structure Sent (C : Classes Ty) (D : Ty) (y y' : String → Value) : Prop where
  suits : ∀ field ∈ C.buildFieldHints D, C.Suits field.2 (y field.1)
  canonical : ∀ k, (y k).Canonical
  onWire : ∀ k, Value.OnWire (y k) (y' k)

theorem Sent.record (hy : C.Sent D y y') : (C.record D y).Canonical ∧
    C.Suits (.dataclass D) (C.record D y) ∧ Value.OnWire (C.record D y) (C.wire D y') := by
  have hfst : ((C.sortedNames D).map fun k => (k, y k)).map Prod.fst = C.sortedNames D := by
    rw [List.map_map]
    exact List.map_id _
  refine ⟨?_, ?_, onWire_record.mpr ⟨y', rfl, fun k _ => hy.onWire k⟩⟩
  · refine Value.forall_parts_record.mpr ⟨?_, List.forall_mem_map.mpr fun k _ => hy.canonical k⟩
    exact List.pairwise_map.mpr sortedNames_ascending
  · refine .record (fun k => ?_) fun field hf v hv => ?_
    · rw [hfst, sortedNames_perm.mem_iff, buildFieldHints_names]
    · obtain ⟨k, -, hk⟩ := List.mem_map.mp hv
      obtain ⟨rfl, rfl⟩ := Prod.mk.inj hk
      exact hy.suits field hf

theorem SurvivesFor.callsWith_iff (hP : SurvivesFor py C D) (hy : C.Sent D y y') :
    py.CallsWith C D (C.record D y) kw ↔ py.CallsWith C D (C.wire D y') kw :=
  hP _ _ hy.record.1 hy.record.2.1 hy.record.2.2 kw

theorem exists_kwargs {f : (String × FieldHint Ty) × String → Outcome PyException Obj}
    (hall : ∀ q ∈ C.positions D, ∃ o, f q = .ok o) : ∃ kw : List (String × Obj),
      List.Forall₂ (fun p kv => f p = .ok kv.2 ∧ p.1.1 = kv.1) (C.positions D) kw := by
  have hflip : ∀ q ∈ C.positions D, ∃ kv : String × Obj, f q = .ok kv.2 ∧ q.1.1 = kv.1 :=
    fun q hq => by
      obtain ⟨o, ho⟩ := hall q hq
      exact ⟨(q.1.1, o), ho, rfl⟩
  obtain ⟨kw, hkw⟩ := exists_forall₂ hflip
  exact ⟨kw, hkw.flip⟩

/-- If all fields convert on one side of the wire, each converts to the same on the other. -/
theorem SurvivesFor.sameArg (hP : SurvivesFor py C D) (hD : C.isDataclass D = true)
    (hy : C.Sent D y y') {p : (String × FieldHint Ty) × String} (hp : p ∈ C.positions D)
    {n : ℕ} {o : Obj} :
    ((∀ q ∈ C.positions D, ∃ o, py.convertField (py.asRecord C n) q.1.2 (y q.1.1) = .ok o) →
      py.convertField (py.asRecord C n) p.1.2 (y p.1.1) = .ok o →
      ∃ m, py.convertField (py.asRecord C m) p.1.2 (y' p.2) = .ok o) ∧
    ((∀ q ∈ C.positions D, ∃ o, py.convertField (py.asRecord C n) q.1.2 (y' q.2) = .ok o) →
      py.convertField (py.asRecord C n) p.1.2 (y' p.2) = .ok o →
      ∃ m, py.convertField (py.asRecord C m) p.1.2 (y p.1.1) = .ok o) := by
  refine ⟨?_, ?_⟩
  · intro hall ho
    obtain ⟨kw, hkw⟩ := exists_kwargs hall
    obtain ⟨m, hm⟩ := (hP.callsWith_iff hy).mp ⟨n, (kwargs_record hD).mpr hkw⟩
    obtain ⟨kv, hkv, hkv'⟩ := exists_of_forall₂ hkw ((kwargs_wire hD).mp hm) hp
    obtain rfl := Outcome.ok.inj (ho.symm.trans hkv.1)
    exact ⟨m, hkv'.1⟩
  · intro hall ho
    obtain ⟨kw, hkw⟩ := exists_kwargs hall
    obtain ⟨m, hm⟩ := (hP.callsWith_iff hy).mpr ⟨n, (kwargs_wire hD).mpr hkw⟩
    obtain ⟨kv, hkv, hkv'⟩ := exists_of_forall₂ hkw ((kwargs_record hD).mp hm) hp
    obtain rfl := Outcome.ok.inj (ho.symm.trans hkv.1)
    exact ⟨m, hkv'.1⟩

/-- All fields are empty vectors but one. -/
def only (k : String) (v : Value) : String → Value := Function.update (fun _ => blank) k v

@[simp] theorem only_self (k : String) (v : Value) : only k v k = v := Function.update_self ..

@[simp] theorem only_ne {k l : String} (h : l ≠ k) (v : Value) : only k v l = blank :=
  Function.update_of_ne h ..

theorem only_sent {p : (String × FieldHint Ty) × String} (hp : p ∈ C.positions D) {k : String}
    {v v' : Value} (hs : p.1.1 = k → C.Suits p.1.2 v) (hk : p.1.1 = k ∨ v.RecordFree)
    (hc : v.Canonical) (hw : Value.OnWire v v') : C.Sent D (only k v) (only k v') where
  suits field hf := by
    by_cases hn : field.1 = k
    · rw [hn, only_self]
      rcases hk with hk | hr
      · obtain ⟨q, hq, rfl⟩ := List.mem_map.mp (positions_fields ▸ hf)
        obtain rfl := position_of_name hp hq (hk.trans hn.symm)
        exact hs hk
      · exact .bare hr
    · rw [only_ne hn]
      exact .bare blank_plain.2.1
  canonical l := by
    by_cases hl : l = k
    · rw [hl, only_self]
      exact hc
    · rw [only_ne hl]
      exact blank_plain.1
  onWire l := by
    by_cases hl : l = k
    · rw [hl, only_self, only_self]
      exact hw
    · rw [only_ne hl, only_ne hl]
      exact blank_plain.2.2

end

theorem only_converts {p : (String × FieldHint Ty) × String} (hp : p ∈ C.positions D) {v : Value}
    {n : ℕ} {o : Term Ty} (ho : (symbolic C).convertField ((symbolic C).asRecord C (n + 1)) p.1.2 v = .ok o) :
    (∀ q ∈ C.positions D, ∃ o, (symbolic C).convertField ((symbolic C).asRecord C (n + 1)) q.1.2
      (only p.2 v q.2) = .ok o) ∧
    ∀ q ∈ C.positions D, ∃ o, (symbolic C).convertField ((symbolic C).asRecord C (n + 1)) q.1.2
      (only p.1.1 v q.1.1) = .ok o := by
  refine ⟨fun q hq => ?_, fun q hq => ?_⟩
  · by_cases hk : q.2 = p.2
    · obtain rfl := position_of_key hq hp hk
      exact ⟨o, by rwa [only_self]⟩
    · rw [only_ne hk]
      exact convert_blank_field (positions_fields ▸ List.mem_map_of_mem hq) n
  · by_cases hk : q.1.1 = p.1.1
    · obtain rfl := position_of_name hq hp hk
      exact ⟨o, by rwa [only_self]⟩
    · rw [only_ne hk]
      exact convert_blank_field (positions_fields ▸ List.mem_map_of_mem hq) n

theorem probe_plain (h : FieldHint Ty) :
    (probe h).Canonical ∧ (probe h).RecordFree ∧ Value.OnWire (probe h) (probe h) := by
  have hvector : (Value.vector [.vector []]).Canonical ∧ (Value.vector [.vector []]).RecordFree :=
    ⟨by decide, Value.forall_parts_vector.mpr ⟨by simp, by simp [Value.parts, Value.partsSeq]⟩⟩
  cases h with
  | optional inner => exact ⟨none_plain.1, none_plain.2, .none, rfl, rfl⟩
  | _ => exact ⟨hvector.1, hvector.2, .vector [.vector []], rfl, rfl⟩

/-- A record in which one field holds the probe tells a misplaced field. -/
theorem SurvivesFor.inOrder (hP : SurvivesFor (symbolic C) C D) (hD : C.isDataclass D = true)
    {p : (String × FieldHint Ty) × String} (hp : p ∈ C.positions D) :
    p.1.1 = p.2 ∨ C.Fieldless p.1.2 := by
  by_contra hne
  obtain ⟨hname, hfield⟩ := not_or.mp hne
  obtain ⟨hc, hr, hw⟩ := probe_plain p.1.2
  have hsent : C.Sent D (only p.2 (probe p.1.2)) (only p.2 (probe p.1.2)) :=
    only_sent hp (fun _ => .bare hr) (.inr hr) hc hw
  have hf : p.1 ∈ C.buildFieldHints D := positions_fields ▸ List.mem_map_of_mem hp
  obtain ⟨o, ho⟩ := convert_probe_field hf 0
  obtain ⟨m, hm⟩ := (hP.sameArg hD hsent hp).2 (only_converts hp ho).1 (by rwa [only_self])
  rw [only_ne hname] at hm
  exact probe_ne_blank hfield ho hm

/-! A value of a dataclass inside one of a field. -/

theorem onWire_set_singleton {v w : Value} (h : Value.OnWire v w) :
    Value.OnWire (.set [v]) (.set [w]) := by
  obtain ⟨rv, hrv, rfl⟩ := h
  exact ⟨.set [rv], by simp [Value.toRust_set, List.mapM_cons, hrv, collectBy, insertBy], rfl⟩

theorem onWire_table_singleton {k v k' v' : Value} (hk : Value.OnWire k k') (hv : Value.OnWire v v') :
    Value.OnWire (.table [(k, v)]) (.table [(k', v')]) := by
  obtain ⟨rk, hrk, rfl⟩ := hk
  obtain ⟨rv, hrv, rfl⟩ := hv
  refine ⟨.table [(rk, rv)], ?_, rfl⟩
  simp [Value.toRust_table, List.mapM_cons, Value.toRustEntry, hrk, hrv, collectBy, insertBy]

/-- A dict of one key holds nothing else. -/
theorem assign_single {k v d : Term Ty} (h : assign C (.dict []) k v = some d) :
    ∃ es, d = .dict es ∧ ∀ e, e ∈ es ↔ e = (k, v) := by
  rw [assign] at h
  split_ifs at h
  · obtain rfl := Option.some.inj h
    exact ⟨_, rfl, by simp⟩
  · obtain rfl := Option.some.inj h
    exact ⟨_, rfl, by simp⟩

theorem exists_assign {k : Term Ty} (h : k.hashing C ≠ some .unhashable) (es : List (Term Ty × Term Ty))
    (v : Term Ty) : ∃ es', assign C (.dict es) k v = some (.dict es') := by
  rw [assign, if_neg h]
  split_ifs
  · exact ⟨_, rfl⟩
  · exact ⟨_, rfl⟩

theorem convert_table_singleton {asRecord : Ty → Value → Outcome PyException (Option (Term Ty))}
    {key val : FieldHint Ty} {k v : Value} {o : Term Ty} :
    (symbolic C).convertField asRecord (.table key val) (.table [(k, v)]) = .ok o ↔
      ∃ a b, (symbolic C).convertField asRecord key k = .ok a ∧
        (symbolic C).convertField asRecord val v = .ok b ∧ assign C (.dict []) a b = some o := by
  simp only [convertField, List.foldlM_cons, List.foldlM_nil, Outcome.bind_eq_ok,
    Outcome.ofOption_eq_ok, Outcome.pure_def, Outcome.ok.injEq, exists_eq_right]
  refine ⟨?_, ?_⟩
  · rintro ⟨a, ha, b, hb, ho⟩
    exact ⟨a, b, ha, hb, ho⟩
  · rintro ⟨a, b, ha, hb, ho⟩
    exact ⟨a, ha, b, hb, ho⟩

theorem convert_table_pair {asRecord : Ty → Value → Outcome PyException (Option (Term Ty))}
    {key val : FieldHint Ty} {k v k' v' : Value} {o : Term Ty} :
    (symbolic C).convertField asRecord (.table key val) (.table [(k, v), (k', v')]) = .ok o ↔
      ∃ a b a' b' d, (symbolic C).convertField asRecord key k = .ok a ∧
        (symbolic C).convertField asRecord val v = .ok b ∧
        (symbolic C).convertField asRecord key k' = .ok a' ∧
        (symbolic C).convertField asRecord val v' = .ok b' ∧
        assign C (.dict []) a b = some d ∧ assign C d a' b' = some o := by
  simp only [convertField, List.foldlM_cons, List.foldlM_nil, Outcome.bind_eq_ok,
    Outcome.ofOption_eq_ok, Outcome.pure_def, Outcome.ok.injEq, exists_eq_right]
  refine ⟨?_, ?_⟩
  · rintro ⟨d, ⟨a, ha, b, hb, hd⟩, a', ha', b', hb', ho⟩
    exact ⟨a, b, a', b', d, ha, hb, ha', hb', hd, ho⟩
  · rintro ⟨a, b, a', b', d, ha, hb, ha', hb', hd, ho⟩
    exact ⟨d, ⟨a, ha, b, hb, hd⟩, a', ha', b', hb', ho⟩

/-- Where no dataclass is named, every value is made into something that has a hash. -/
theorem exists_convert_leaf (asRecord : Ty → Value → Outcome PyException (Option (Term Ty)))
    {h : FieldHint Ty} (hl : h.IsLeaf) (hn : h.names = []) (v : Value) :
    ∃ o, (symbolic C).convertField asRecord h v = .ok o ∧ o.hashing C = Option.none := by
  cases h with
  | dataclass E => simp [FieldHint.names] at hn
  | optional inner => exact hl.elim
  | list elem => exact hl.elim
  | set elem => exact hl.elim
  | table key val => exact hl.elim
  | _ => exact ⟨_, rfl, rfl⟩

theorem exists_assign_twice {k : Term Ty} (h : k.hashing C ≠ some .unhashable) (v v' : Term Ty) :
    ∃ d o, assign C (.dict []) k v = some d ∧ assign C d k v' = some o := by
  obtain ⟨es, hes⟩ := exists_assign h [] v
  obtain ⟨es', hes'⟩ := exists_assign h es v'
  exact ⟨_, _, hes, hes'⟩

/-- A dict that one key was added to twice has the second value. -/
theorem assign_twice_inj {E : Ty} (hE : C.hashing E ≠ .unhashable) {k l v v' u u' d d' o : Term Ty}
    (hk : k.hashing C = some (C.hashing E)) (hl : l.hashing C = some (C.hashing E))
    (hd : assign C (.dict []) k v = some d) (ho : assign C d k v' = some o)
    (hd' : assign C (.dict []) l u = some d') (ho' : assign C d' l u' = some o) : v' = u' := by
  cases hash : C.hashing E with
  | unhashable => exact absurd hash hE
  | byValue =>
    rw [hash] at hk hl
    obtain ⟨es, rfl, hes⟩ := assign_single ((assign_again hk _ _ _ _ hd).symm.trans ho)
    obtain ⟨es', heq, hes'⟩ := assign_single ((assign_again hl _ _ _ _ hd').symm.trans ho')
    obtain rfl := Term.dict.inj heq
    exact (Prod.mk.inj ((hes' _).mp ((hes _).mpr rfl))).2
  | arbitrary =>
    simp only [assign, hk, hl, hash, Option.some.injEq, reduceCtorEq, if_false, if_true] at hd hd'
    subst hd hd'
    simp only [assign, hk, hl, hash, Option.some.injEq, reduceCtorEq, if_false, if_true] at ho ho'
    subst ho
    simp only [Term.dict.injEq, List.nil_append, List.cons_append, List.cons.injEq, Prod.mk.injEq] at ho'
    exact ho'.2.1.2.symm

/-- A value for the dataclass `E`, put by `plug` into one under the hint `h`. What the whole is
made into shows by `W` what its part is made into. -/
structure Hole (C : Classes Ty) (E : Ty) (h : FieldHint Ty) (plug : Value → Value)
    (W : Term Ty → Term Ty → Prop) : Prop where
  suits : ∀ {v}, C.Suits (.dataclass E) v → C.Suits h (plug v)
  canonical : ∀ {v : Value}, v.Canonical → (plug v).Canonical
  onWire : ∀ {v w}, Value.OnWire v w → Value.OnWire (plug v) (plug w)
  run : ∀ {v n o}, v ≠ .none →
    (symbolic C).convertField ((symbolic C).asRecord C (n + 1)) (.dataclass E) v = .ok o →
    ∃ o', (symbolic C).convertField ((symbolic C).asRecord C (n + 1)) h (plug v) = .ok o'
  inv : ∀ {v n o'}, v ≠ .none →
    (symbolic C).convertField ((symbolic C).asRecord C n) h (plug v) = .ok o' →
    ∃ o, (symbolic C).convertField ((symbolic C).asRecord C n) (.dataclass E) v = .ok o ∧ W o o'
  inj : ∀ {o p o'}, W o o' → W p o' → o = p

namespace Hole

variable {E : Ty} {h : FieldHint Ty} {plug : Value → Value} {W : Term Ty → Term Ty → Prop}

theorem dataclass (E : Ty) : Hole C E (.dataclass E) id Eq where
  suits hv := hv
  canonical hv := hv
  onWire hv := hv
  run _ ho := ⟨_, ho⟩
  inv _ ho := ⟨_, ho, rfl⟩
  inj ho hp := ho.trans hp.symm

theorem optional (E : Ty) : Hole C E (.optional (.dataclass E)) id Eq where
  suits hv := .optional hv
  canonical hv := hv
  onWire hv := hv
  run hv ho := by
    rw [id, convert_optional hv]
    exact ⟨_, ho⟩
  inv hv ho := by
    rw [id, convert_optional hv] at ho
    exact ⟨_, ho, rfl⟩
  inj ho hp := ho.trans hp.symm

theorem list (E : Ty) :
    Hole C E (.list (.dataclass E)) (fun v => .vector [v]) (fun o o' => o' = .list [o]) where
  suits hv := .list (List.forall_mem_singleton.mpr hv)
  canonical hv := Value.forall_parts_vector.mpr ⟨trivial, List.forall_mem_singleton.mpr hv⟩
  onWire hv := Value.onWire_vector.mpr ⟨_, rfl, .cons hv .nil⟩
  run {_ _ o} _ ho := ⟨.list [o], by simp only [convertField, List.mapM_cons] at ho ⊢; simp [ho]; rfl⟩
  inv _ ho := by
    obtain ⟨os, hos, ho⟩ := Outcome.bind_eq_ok.mp ho
    obtain ⟨p, _, hp, hnil, rfl⟩ := List.forall₂_cons_left_iff.mp (Outcome.mapM_eq_ok.mp hos)
    obtain rfl := List.forall₂_nil_left_iff.mp hnil
    exact ⟨p, hp, (Outcome.ok.inj ho).symm⟩
  inj := by
    rintro o p _ rfl heq
    simpa using heq

theorem set {E : Ty} (hE : C.hashing E = .byValue) : Hole C E (.set (.dataclass E)) (fun v => .set [v])
    (fun o o' => ∃ os, o' = .set os ∧ ∀ p, p ∈ os ↔ p = o) where
  suits hv := .set (List.forall_mem_singleton.mpr hv)
  canonical hv := Value.forall_parts_set.mpr
    ⟨List.pairwise_singleton _ _, List.forall_mem_singleton.mpr hv⟩
  onWire hv := onWire_set_singleton hv
  run {_ _ o} _ ho := by
    have hmade := madeBy_symbolic.mp (madeBy_of_convert ho)
    refine ⟨.set (representative [o]),
      Outcome.bind_eq_ok.mpr ⟨[o], Outcome.mapM_eq_ok.mpr (.cons ho .nil), ?_⟩⟩
    exact Outcome.ofOption_eq_ok.mpr (frozen_byValue fun p hp => by
      rw [List.mem_singleton.mp hp, hmade, hE]
      exact ⟨by simp, by simp⟩)
  inv _ ho := by
    obtain ⟨os, hos, ho⟩ := Outcome.bind_eq_ok.mp ho
    obtain ⟨p, _, hp, hnil, rfl⟩ := List.forall₂_cons_left_iff.mp (Outcome.mapM_eq_ok.mp hos)
    obtain rfl := List.forall₂_nil_left_iff.mp hnil
    have hmade := madeBy_symbolic.mp (madeBy_of_convert hp)
    have hset : frozen C [p] = _ := frozen_byValue fun q hq => by
      rw [List.mem_singleton.mp hq, hmade, hE]
      exact ⟨by simp, by simp⟩
    obtain rfl := Option.some.inj (hset.symm.trans (Outcome.ofOption_eq_ok.mp ho))
    exact ⟨p, hp, _, rfl, by simp⟩
  inj := by
    rintro o p _ ⟨os, rfl, ho⟩ ⟨os', heq, hp⟩
    obtain rfl := Term.set.inj heq
    exact (hp o).mp ((ho o).mpr rfl)

theorem table {key : FieldHint Ty} (hl : key.IsLeaf) (hn : key.names = []) (E : Ty) :
    Hole C E (.table key (.dataclass E)) (fun v => .table [(blank, v)])
      (fun o o' => ∃ a es, o' = .dict es ∧ ∀ e, e ∈ es ↔ e = (a, o)) where
  suits hv := .table (List.forall_mem_singleton.mpr (.bare blank_plain.2.1))
    (List.forall_mem_singleton.mpr hv)
  canonical hv := Value.forall_parts_table.mpr
    ⟨List.pairwise_singleton _ _, List.forall_mem_singleton.mpr ⟨blank_plain.1, hv⟩⟩
  onWire hv := onWire_table_singleton blank_plain.2.2 hv
  run {_ n o} _ ho := by
    obtain ⟨a, ha, hnone⟩ := exists_convert_leaf (C := C) ((symbolic C).asRecord C (n + 1)) hl hn blank
    have hhash : a.hashing C ≠ some .unhashable := by simp [hnone]
    obtain ⟨es, hes⟩ := exists_assign hhash [] o
    exact ⟨_, convert_table_singleton.mpr ⟨a, o, ha, ho, hes⟩⟩
  inv _ ho := by
    obtain ⟨a, b, -, hb, hd⟩ := convert_table_singleton.mp ho
    obtain ⟨es, rfl, hes⟩ := assign_single hd
    exact ⟨b, hb, a, es, rfl, hes⟩
  inj := by
    rintro o p _ ⟨a, es, rfl, ho⟩ ⟨a', es', heq, hp⟩
    obtain rfl := Term.dict.inj heq
    exact (Prod.mk.inj ((hp _).mp ((ho _).mpr rfl))).2

/-- Values that are made alike around the hole are made alike in it. -/
theorem transfer (H : Hole C E h plug W) {v w : Value} (hv : v ≠ .none) (hw : w ≠ .none) {m n : ℕ}
    {o o' : Term Ty}
    (ho : (symbolic C).convertField ((symbolic C).asRecord C m) (.dataclass E) v = .ok o)
    (hplug : (symbolic C).convertField ((symbolic C).asRecord C m) h (plug v) = .ok o')
    (hplug' : (symbolic C).convertField ((symbolic C).asRecord C n) h (plug w) = .ok o') :
    (symbolic C).convertField ((symbolic C).asRecord C n) (.dataclass E) w = .ok o := by
  obtain ⟨o₁, ho₁, hW₁⟩ := H.inv hv hplug
  obtain ⟨o₂, ho₂, hW₂⟩ := H.inv hw hplug'
  obtain rfl := Outcome.ok.inj (ho.symm.trans ho₁)
  obtain rfl := H.inj hW₁ hW₂
  exact ho₂

end Hole

theorem exists_hole {h : FieldHint Ty} (hflat : h.Flat) {E : Ty} (hE : E ∈ C.leadsTo h) :
    ∃ plug W, Hole C E h plug W := by
  have hleaf : ∀ {l : FieldHint Ty}, l.IsLeaf → E ∈ l.names → l = .dataclass E := by
    intro l hl hmem
    rcases hl.names_eq with hn | ⟨F, rfl⟩
    · simp [hn] at hmem
    · rw [List.mem_singleton.mp hmem]
  cases h with
  | dataclass F =>
    obtain rfl := List.mem_singleton.mp hE
    exact ⟨_, _, .dataclass E⟩
  | optional inner =>
    obtain rfl := hleaf hflat hE
    exact ⟨_, _, .optional E⟩
  | list elem =>
    obtain rfl := hleaf hflat hE
    exact ⟨_, _, .list E⟩
  | set elem =>
    obtain ⟨hmem, hhash⟩ := List.mem_filter.mp hE
    obtain rfl := hleaf hflat hmem
    exact ⟨_, _, .set (of_decide_eq_true hhash)⟩
  | table key val =>
    simp only [leadsTo] at hE
    split at hE
    · next hn =>
      obtain rfl := hleaf hflat.2 hE
      exact ⟨_, _, .table hflat.1 (List.isEmpty_iff.mp hn) E⟩
    · simp at hE
  | _ => simp [leadsTo] at hE

/-! A record and its wire form are different values of one wire form. Next to each other in a set
or as keys they are merged. -/

theorem blank_sent : C.Sent D (fun _ => blank) (fun _ => blank) where
  suits _ _ := .bare blank_plain.2.1
  canonical _ := blank_plain.1
  onWire _ := blank_plain.2.2

/-- A record of empty vectors. -/
def twin (C : Classes Ty) (E : Ty) : Value := C.record E fun _ => blank

/-- Its wire form. -/
def wireTwin (C : Classes Ty) (E : Ty) : Value := C.wire E fun _ => blank

/-- The wire form with a value more than there are fields. -/
def longTwin (C : Classes Ty) (E : Ty) : Value := .vector ((C.sortedNames E).map (fun _ => blank) ++ [blank])

section
variable {E : Ty}

theorem twin_sent : (C.twin E).Canonical ∧ C.Suits (.dataclass E) (C.twin E) ∧
    Value.OnWire (C.twin E) (C.wireTwin E) :=
  C.blank_sent.record

theorem vector_blanks {xs : List Value} (h : ∀ x ∈ xs, x = blank) :
    (Value.vector xs).Canonical ∧ (Value.vector xs).RecordFree ∧
      Value.toRust (.vector xs) = .ok (.vector (xs.map fun _ => .vector [])) ∧
      Value.ofRust (.vector (xs.map fun _ => .vector [])) = .vector xs := by
  refine ⟨?_, ?_, ?_, ?_⟩
  · exact Value.forall_parts_vector.mpr ⟨trivial, fun x hx => h x hx ▸ blank_plain.1⟩
  · exact Value.forall_parts_vector.mpr ⟨by simp, fun x hx => h x hx ▸ blank_plain.2.1⟩
  · have hall : List.Forall₂ (fun x rv => Value.toRust x = .ok rv) xs (xs.map fun _ => .vector []) := by
      rw [List.forall₂_map_right_iff, List.forall₂_same]
      intro x hx
      rw [h x hx]
      rfl
    rw [Value.toRust_vector, Outcome.mapM_eq_ok.mpr hall]
    rfl
  · have hback : ∀ x ∈ xs, (Value.ofRust ∘ fun _ => ZWS.Value.vector []) x = id x :=
      fun x hx => (h x hx).symm
    rw [Value.ofRust, Value.ofRustSeq_eq, List.map_map, List.map_congr_left hback, List.map_id]

theorem wireTwin_blanks : (C.wireTwin E).Canonical ∧ (C.wireTwin E).RecordFree ∧
    Value.toRust (C.wireTwin E) = .ok (.vector ((C.sortedNames E).map fun _ => .vector [])) ∧
      Value.ofRust (.vector ((C.sortedNames E).map fun _ => .vector [])) = C.wireTwin E := by
  have hall : ∀ x ∈ (C.sortedNames E).map fun _ => blank, x = blank :=
    List.forall_mem_map.mpr fun _ _ => rfl
  have h := vector_blanks hall
  rwa [List.map_map] at h

theorem longTwin_blanks : (C.longTwin E).Canonical ∧ (C.longTwin E).RecordFree ∧
    Value.toRust (C.longTwin E) =
        .ok (.vector ((C.sortedNames E).map (fun _ => .vector []) ++ [.vector []])) ∧
      Value.ofRust (.vector ((C.sortedNames E).map (fun _ => .vector []) ++ [.vector []])) =
        C.longTwin E := by
  have hall : ∀ x ∈ (C.sortedNames E).map (fun _ => blank) ++ [blank], x = blank := by
    refine List.forall_mem_append.mpr ⟨List.forall_mem_map.mpr fun _ _ => rfl, ?_⟩
    exact List.forall_mem_singleton.mpr rfl
  have h := vector_blanks hall
  rwa [List.map_append, List.map_map] at h

theorem twin_toRust :
    Value.toRust (C.twin E) = .ok (.vector ((C.sortedNames E).map fun _ => .vector [])) := by
  rw [twin, record, Value.toRust_record, List.map_map]
  exact wireTwin_blanks.2.2.1

theorem vector_lt_twin (xs : List Value) : Value.cmp (.vector xs) (C.twin E) = .lt := by
  rw [twin, record, Value.cmp_variants (by simp [Value.discriminant])]
  rfl

theorem wireTwin_lt_longTwin : Value.cmp (C.wireTwin E) (C.longTwin E) = .lt ∧
    ∀ rs : List ZWS.Value, ZWS.Value.cmp (.vector rs) (.vector (rs ++ [.vector []])) = .lt := by
  refine ⟨?_, fun rs => ?_⟩
  · rw [wireTwin, longTwin, wire, Value.cmp]
    induction (C.sortedNames E).map fun _ => blank with
    | nil => rfl
    | cons x xs ih => simp [Value.cmpSeq, Std.ReflCmp.compare_self, ih]
  · rw [ZWS.Value.cmp]
    induction rs with
    | nil => rfl
    | cons r rs ih => simp [ZWS.Value.cmpSeq, Std.ReflCmp.compare_self, ih]

/-- All three make the same instance. -/
theorem typedValues_twins : typedValues C E (C.longTwin E) = typedValues C E (C.twin E) ∧
    typedValues C E (C.wireTwin E) = typedValues C E (C.twin E) := by
  have hwire : typedValues C E (C.wireTwin E) = typedValues C E (C.twin E) := by
    rw [wireTwin, twin, typedValues_wire, typedValues_record]
  refine ⟨?_, hwire⟩
  have hlen : ((C.sortedNames E).map fun _ => blank).length = (C.buildFieldHints E).length := by
    rw [List.length_map, positions_length]
  have hzip : ((C.sortedNames E).map (fun _ => blank) ++ [blank]).zip (C.buildFieldHints E ++ []) =
      ((C.sortedNames E).map fun _ => blank).zip (C.buildFieldHints E) ++ [blank].zip [] :=
    List.zip_append hlen
  rw [List.append_nil, List.zip_nil_right, List.append_nil] at hzip
  rw [← hwire, longTwin, wireTwin, wire, typedValues, typedValues, hzip]

theorem convert_congr {n : ℕ} {v w : Value} (h : typedValues C E v = typedValues C E w) {o : Term Ty} :
    (symbolic C).convertField ((symbolic C).asRecord C n) (.dataclass E) v = .ok o ↔
      (symbolic C).convertField ((symbolic C).asRecord C n) (.dataclass E) w = .ok o := by
  rw [convert_dataclass, convert_dataclass]
  simp only [kwargs, h]

theorem convert_wireTwin (hE : C.isDataclass E = true) :
    ∃ kw, (symbolic C).convertField ((symbolic C).asRecord C 2) (.dataclass E) (C.wireTwin E) =
      .ok (.object E kw) := by
  obtain ⟨kw, hkw⟩ := exists_kwargs (C := C) (D := E) fun q hq =>
    convert_blank_field (positions_fields ▸ List.mem_map_of_mem hq) 0
  exact ⟨kw, convert_dataclass.mpr ⟨1, kw, rfl, (kwargs_wire hE).mpr hkw, rfl⟩⟩

theorem convert_none_fails {n : ℕ} (o : Term Ty) :
    (symbolic C).convertField ((symbolic C).asRecord C n) (.dataclass E) .none ≠ .ok o := by
  intro h
  obtain ⟨m, kw, -, hkw, -⟩ := convert_dataclass.mp h
  obtain ⟨-, args, hargs, -⟩ := kwargs_eq_some.mp hkw
  simp [typedValues] at hargs

end

/-- Two values that are made into one on the wire, and into something else without it. -/
structure Merged (C : Classes Ty) (h : FieldHint Ty) (v w : Value) : Prop where
  suits : C.Suits h v
  canonical : v.Canonical
  onWire : Value.OnWire v w
  differs : ∃ o, (symbolic C).convertField ((symbolic C).asRecord C 2) h w = .ok o ∧
    ∀ m, (symbolic C).convertField ((symbolic C).asRecord C m) h v ≠ .ok o

section
variable {E : Ty}

/-- A set of both, where they are not compared by value. -/
theorem merged_set (hdata : C.isDataclass E = true) (hE : C.hashing E = .arbitrary) :
    C.Merged (.set (.dataclass E)) (.set [C.wireTwin E, C.twin E]) (.set [C.wireTwin E]) := by
  obtain ⟨hc, hs, hw⟩ := C.twin_sent (E := E)
  obtain ⟨hc', hr', hrust', hback⟩ := C.wireTwin_blanks (E := E)
  have hfrozen : ∀ os : List (Term Ty), os ≠ [] → (∀ o ∈ os, o.hashing C = some .arbitrary) →
      frozen C os = some (.set os) := by
    intro os hne hos
    obtain ⟨o, ho⟩ := List.exists_mem_of_ne_nil os hne
    have hno : ¬ ∃ o ∈ os, o.hashing C = some .unhashable := by
      rintro ⟨o, ho, he⟩
      simp [hos o ho] at he
    rw [frozen, if_neg hno, if_pos ⟨o, ho, hos o ho⟩]
  refine ⟨.set ?_, ?_, ?_, ?_⟩
  · exact List.forall_mem_cons.mpr ⟨.bare hr', List.forall_mem_singleton.mpr hs⟩
  · refine Value.forall_parts_set.mpr
      ⟨?_, List.forall_mem_cons.mpr ⟨hc', List.forall_mem_singleton.mpr hc⟩⟩
    have hlt : Value.cmp (C.wireTwin E) (C.twin E) = .lt := vector_lt_twin _
    simpa [Value.NodeOrdered, Ascending] using hlt
  · refine ⟨.set [.vector ((C.sortedNames E).map fun _ => .vector [])], ?_, ?_⟩
    · simp [Value.toRust_set, List.mapM_cons, hrust', C.twin_toRust, collectBy, insertBy, keepNew,
        Std.ReflCmp.compare_self]
    · simp [Value.ofRust, Value.ofRustSeq, collectBy, insertBy, ← hback]
  · obtain ⟨kw, hkw⟩ := convert_wireTwin hdata
    refine ⟨.set [.object E kw], Outcome.bind_eq_ok.mpr ⟨[.object E kw],
      Outcome.mapM_eq_ok.mpr (.cons hkw .nil), ?_⟩, fun m hm => ?_⟩
    · have hmade : (Term.object E kw).hashing C = some .arbitrary := congrArg some hE
      exact Outcome.ofOption_eq_ok.mpr
        (hfrozen _ (List.cons_ne_nil _ _) (List.forall_mem_singleton.mpr hmade))
    · obtain ⟨os, hos, ho⟩ := Outcome.bind_eq_ok.mp hm
      have hlen := (Outcome.mapM_eq_ok.mp hos).length_eq
      have hmade : ∀ o ∈ os, o.hashing C = some .arbitrary := by
        intro o ho
        obtain ⟨x, -, hx⟩ := Outcome.mem_of_mapM hos ho
        exact hE ▸ madeBy_symbolic.mp (madeBy_of_convert hx)
      have hne : os ≠ [] := by
        rintro rfl
        simp at hlen
      have hset := Option.some.inj ((hfrozen os hne hmade).symm.trans (Outcome.ofOption_eq_ok.mp ho))
      rw [Term.set.inj hset] at hlen
      simp at hlen

/-- A dict of both, whose values are made from a dataclass: the one for the wire form is never made,
and is replaced on the wire. -/
theorem merged_table_dataclass {F : Ty} (hdata : C.isDataclass E = true) (hF : C.isDataclass F = true)
    (hE : C.hashing E ≠ .unhashable) : C.Merged (.table (.dataclass E) (.dataclass F))
      (.table [(C.wireTwin E, .none), (C.twin E, blank)]) (.table [(C.wireTwin E, blank)]) := by
  obtain ⟨hc, hs, hw⟩ := C.twin_sent (E := E)
  obtain ⟨hc', hr', hrust', hback⟩ := C.wireTwin_blanks (E := E)
  refine ⟨.table ?_ ?_, ?_, ?_, ?_⟩
  · exact List.forall_mem_cons.mpr ⟨.bare hr', List.forall_mem_singleton.mpr hs⟩
  · exact List.forall_mem_cons.mpr
      ⟨.bare none_plain.2, List.forall_mem_singleton.mpr (.bare blank_plain.2.1)⟩
  · refine Value.forall_parts_table.mpr ⟨?_, List.forall_mem_cons.mpr ⟨⟨hc', none_plain.1⟩,
      List.forall_mem_singleton.mpr ⟨hc, blank_plain.1⟩⟩⟩
    have hlt : Value.cmp (C.wireTwin E) (C.twin E) = .lt := vector_lt_twin _
    simpa [Value.NodeOrdered, Ascending, byKey] using hlt
  · have hb : Value.toRust blank = .ok (.vector []) := rfl
    have hn : Value.toRust .none = .ok .none := rfl
    refine ⟨.table [(.vector ((C.sortedNames E).map fun _ => .vector []), .vector [])], ?_, ?_⟩
    · simp [Value.toRust_table, List.mapM_cons, Value.toRustEntry, hrust', C.twin_toRust, hb, hn,
        collectBy, insertBy, byKey, keepNew, Std.ReflCmp.compare_self]
    · simp [Value.ofRust, Value.ofRustEntries, Value.ofRustSeq, collectBy, insertBy, ← hback, blank]
  · obtain ⟨kw, hkw⟩ := convert_wireTwin hdata
    have hkwargs : (symbolic C).kwargs ((symbolic C).asRecord C 1) C F blank = .ok (some []) :=
      kwargs_eq_some.mpr ⟨hF, [], by simp [typedValues, blank], rfl⟩
    have hb := convert_dataclass.mpr ⟨1, [], rfl, hkwargs, rfl⟩
    have hk : (Term.object E kw).hashing C ≠ some .unhashable := fun hk => hE (Option.some.inj hk)
    obtain ⟨es, hes⟩ := exists_assign hk [] (.object F [])
    refine ⟨_, convert_table_singleton.mpr ⟨_, _, hkw, hb, hes⟩, fun m hm => ?_⟩
    obtain ⟨a, b, _, _, _, -, hb, -⟩ := convert_table_pair.mp hm
    exact convert_none_fails b hb

/-- A dict with keys for one instance: on the wire they change places, and another value counts. -/
theorem merged_table_leaf {val : FieldHint Ty} (hdata : C.isDataclass E = true)
    (hE : C.hashing E ≠ .unhashable) (hl : val.IsLeaf) (hn : val.names = []) :
    C.Merged (.table (.dataclass E) val) (.table [(C.longTwin E, blank), (C.twin E, probe val)])
      (.table [(C.wireTwin E, probe val), (C.longTwin E, blank)]) := by
  obtain ⟨hc, hs, hw⟩ := C.twin_sent (E := E)
  obtain ⟨hc', hr', hrust', hback⟩ := C.wireTwin_blanks (E := E)
  obtain ⟨hcl, hrl, hrustl, hbackl⟩ := C.longTwin_blanks (E := E)
  obtain ⟨hcp, hrp, hwp⟩ := probe_plain val
  refine ⟨.table ?_ ?_, ?_, ?_, ?_⟩
  · exact List.forall_mem_cons.mpr ⟨.bare hrl, List.forall_mem_singleton.mpr hs⟩
  · exact List.forall_mem_cons.mpr ⟨.bare blank_plain.2.1, List.forall_mem_singleton.mpr (.bare hrp)⟩
  · refine Value.forall_parts_table.mpr ⟨?_, List.forall_mem_cons.mpr ⟨⟨hcl, blank_plain.1⟩,
      List.forall_mem_singleton.mpr ⟨hc, hcp⟩⟩⟩
    have hlt : Value.cmp (C.longTwin E) (C.twin E) = .lt := vector_lt_twin _
    simpa [Value.NodeOrdered, Ascending, byKey] using hlt
  · have hb : Value.toRust blank = .ok (.vector []) := rfl
    obtain ⟨rp, hrustp, hbackp⟩ := hwp
    obtain ⟨hlt, hltRust⟩ := C.wireTwin_lt_longTwin (E := E)
    refine ⟨.table [(.vector ((C.sortedNames E).map fun _ => .vector []), rp),
      (.vector ((C.sortedNames E).map (fun _ => .vector []) ++ [.vector []]), .vector [])], ?_, ?_⟩
    · simp [Value.toRust_table, List.mapM_cons, Value.toRustEntry, hrustl, C.twin_toRust, hb, hrustp,
        collectBy, insertBy, byKey, hltRust]
    · have hblank : Value.ofRust (.vector []) = blank := rfl
      rw [Value.ofRust, Value.ofRustEntries_eq, List.map_cons, List.map_cons, List.map_nil, hback, hbackl,
        hbackp, hblank, collectBy_of_ascending]
      simpa [Ascending, byKey] using hlt
  · obtain ⟨kw, hkw⟩ := convert_wireTwin hdata
    have hlong := (convert_congr (typedValues_twins.1.trans typedValues_twins.2.symm)).mpr hkw
    obtain ⟨p, hp, -⟩ := exists_convert_leaf (C := C) ((symbolic C).asRecord C 2) hl hn (probe val)
    obtain ⟨b, hb, -⟩ := exists_convert_leaf (C := C) ((symbolic C).asRecord C 2) hl hn blank
    have hk : (Term.object E kw).hashing C = some (C.hashing E) := rfl
    obtain ⟨d, o, hd, ho⟩ := exists_assign_twice (k := .object E kw) (fun hk => hE (Option.some.inj hk)) p b
    refine ⟨o, convert_table_pair.mpr ⟨_, _, _, _, d, hkw, hp, hlong, hb, hd, ho⟩, fun m hm => ?_⟩
    · obtain ⟨l, b', l', p', d', hmade, hb', hl', hp', hd', ho'⟩ := convert_table_pair.mp hm
      have hsame := (convert_congr typedValues_twins.1).mp hmade
      obtain rfl := Outcome.ok.inj (hsame.symm.trans hl')
      obtain rfl := assign_twice_inj hE hk (madeBy_symbolic.mp (madeBy_of_convert hmade)) hd ho hd' ho'
      have hval : ¬ C.Fieldless val := by
        rintro ⟨F, rfl, -⟩
        simp [FieldHint.names] at hn
      exact probe_ne_blank hval hp' hb

end

/-- A field whose values are merged on the wire does not survive. -/
theorem SurvivesFor.not_merged (hP : SurvivesFor (symbolic C) C D) (hD : C.isDataclass D = true)
    {field : String × FieldHint Ty} (hf : field ∈ C.buildFieldHints D) (hne : ¬ C.Fieldless field.2)
    {v w : Value} : ¬ C.Merged field.2 v w := by
  intro hm
  obtain ⟨p, hp, rfl⟩ := List.mem_map.mp (positions_fields ▸ hf)
  have hplace : p.1.1 = p.2 := (hP.inOrder hD hp).resolve_right hne
  obtain ⟨o, ho, hdiffers⟩ := hm.differs
  have hsent : C.Sent D (only p.2 v) (only p.2 w) :=
    only_sent hp (fun _ => hm.suits) (.inl hplace) hm.canonical hm.onWire
  obtain ⟨m, hv⟩ := (hP.sameArg hD hsent hp).2 (only_converts hp ho).1 (by rwa [only_self])
  rw [hplace, only_self] at hv
  exact hdiffers m hv

theorem SurvivesFor.wireReady (hP : SurvivesFor (symbolic C) C D) (hD : C.isDataclass D = true) :
    C.WireReady D where
  inOrder _ hp := hP.inOrder hD hp
  elements field hf E hE harb := by
    have hnames : ∀ F ∈ field.2.names, C.isDataclass F = true := fun F => names_isDataclass hf
    have hmerged := fun hne v w => hP.not_merged hD hf (v := v) (w := w) hne
    have hflat := buildFieldHints_flat hf
    generalize field.2 = h at *
    cases h with
    | set elem =>
      rcases hflat.names_eq with hn | ⟨F, rfl⟩
      · simp [FieldHint.elements, hn] at hE
      · obtain rfl := List.mem_singleton.mp hE
        refine hmerged ?_ _ _ (merged_set (hnames E (by simp [FieldHint.names])) harb)
        rintro ⟨F, hF, -⟩
        simp at hF
    | _ => simp [FieldHint.elements] at hE
  keys field hf E hE := by
    by_contra hhash
    have hnames : ∀ F ∈ field.2.names, C.isDataclass F = true := fun F => names_isDataclass hf
    have hmerged := fun hne v w => hP.not_merged hD hf (v := v) (w := w) hne
    have hflat := buildFieldHints_flat hf
    generalize field.2 = h at *
    cases h with
    | table key val =>
      have hne : ¬ C.Fieldless (.table key val) := by
        rintro ⟨F, hF, -⟩
        simp at hF
      rcases hflat.1.names_eq with hn | ⟨F, rfl⟩
      · simp [FieldHint.keys, hn] at hE
      · obtain rfl := List.mem_singleton.mp hE
        have hdata := hnames E (by simp [FieldHint.names])
        rcases hflat.2.names_eq with hn | ⟨F, rfl⟩
        · exact hmerged hne _ _ (merged_table_leaf hdata hhash hflat.2 hn)
        · exact hmerged hne _ _ (merged_table_dataclass hdata (hnames F (by simp [FieldHint.names])) hhash)
    | _ => simp [FieldHint.keys] at hE

theorem callsWith_iff_convert {v : Value} {kw : List (String × Term Ty)} :
    (symbolic C).CallsWith C D v kw ↔ ∃ n,
      (symbolic C).convertField ((symbolic C).asRecord C n) (.dataclass D) v = .ok (.object D kw) := by
  refine ⟨?_, ?_⟩
  · intro h
    obtain ⟨n, hn⟩ := h
    exact ⟨n + 1, convert_dataclass.mpr ⟨n, kw, rfl, hn, rfl⟩⟩
  · intro h
    obtain ⟨n, hn⟩ := h
    obtain ⟨m, kw', -, hkw, hcall⟩ := convert_dataclass.mp hn
    obtain ⟨-, rfl⟩ := Term.object.inj (Option.some.inj hcall)
    exact ⟨m, hkw⟩

/-- What a dataclass is made from is looked at only if there is room on the stack. -/
theorem convert_dataclass_pos {n : ℕ} {v : Value} {o : Term Ty}
    (h : (symbolic C).convertField ((symbolic C).asRecord C n) (.dataclass D) v = .ok o) :
    ∃ m, n = m + 1 := by
  obtain ⟨m, -, hm, -⟩ := convert_dataclass.mp h
  exact ⟨m, hm⟩

/-- What survives in a class survives in the classes that it leads to. -/
theorem SurvivesFor.named (hP : SurvivesFor (symbolic C) C D) (hD : C.isDataclass D = true)
    {field : String × FieldHint Ty} (hf : field ∈ C.buildFieldHints D) {E : Ty}
    (hE : E ∈ C.leadsTo field.2) : SurvivesFor (symbolic C) C E := by
  intro fs w hc hs hw kw
  have hrec : (Value.record fs).Recordish := .inr ⟨fs, rfl⟩
  have hw_ne : w ≠ .none := mt hw.shape.2.mp (by simp)
  have hflat := buildFieldHints_flat hf
  obtain ⟨p, hp, rfl⟩ := List.mem_map.mp (positions_fields ▸ hf)
  rcases hP.inOrder hD hp with hplace | ⟨E', hE', hfl⟩
  · obtain ⟨plug, W, H⟩ := exists_hole hflat hE
    have hsent : C.Sent D (only p.2 (plug (.record fs))) (only p.2 (plug w)) :=
      only_sent hp (fun _ => H.suits hs) (.inl hplace) (H.canonical hc) (H.onWire hw)
    rw [callsWith_iff_convert, callsWith_iff_convert]
    refine ⟨?_, ?_⟩
    · rintro ⟨n, hn⟩
      obtain ⟨n, rfl⟩ := convert_dataclass_pos hn
      obtain ⟨o', ho'⟩ := H.run (by simp) hn
      obtain ⟨m, hm⟩ := (hP.sameArg hD hsent hp).1 (hplace ▸ (only_converts hp ho').2)
        (by rwa [hplace, only_self])
      rw [only_self] at hm
      exact ⟨m, H.transfer (by simp) hw_ne hn ho' hm⟩
    · rintro ⟨n, hn⟩
      obtain ⟨n, rfl⟩ := convert_dataclass_pos hn
      obtain ⟨o', ho'⟩ := H.run hw_ne hn
      obtain ⟨m, hm⟩ := (hP.sameArg hD hsent hp).2 (only_converts hp ho').1 (by rwa [only_self])
      rw [hplace, only_self] at hm
      exact ⟨m, H.transfer hw_ne (by simp) hn ho' hm⟩
  · rw [hE'] at hE
    obtain rfl := List.mem_singleton.mp hE
    refine exists_congr fun n => ?_
    rw [kwargs_fieldless hfl, kwargs_fieldless hfl, hw.shape.1]

theorem survives_reaches {T : Ty} (hT : C.isDataclass T = true) (hP : SurvivesFor (symbolic C) C T)
    (h : C.Reaches T D) : C.isDataclass D = true ∧ SurvivesFor (symbolic C) C D := by
  induction h with
  | refl => exact ⟨hT, hP⟩
  | step _ hf hE ih => exact ⟨names_isDataclass hf (names_of_leadsTo hE), ih.2.named ih.1 hf hE⟩

end Classes

/-- Two dataclasses with fields hinted as builtin classes: `X` declares `z` before `a`, and `Y`
declares `a` before `b`. -/
inductive Sample where
  | x
  | y
  | float
  | str
  deriving DecidableEq

namespace Sample

open Classes

def declared : Sample → List (String × Annotation Sample)
  | .x => [("z", .type .float), ("a", .type .str)]
  | .y => [("a", .type .float), ("b", .type .str)]
  | _ => []

def classes : Classes Sample where
  isValue _ := false
  isEnum _ := false
  isDataclass ty := ty == .x || ty == .y
  isNoneType _ := false
  hashing _ := .unhashable
  declared := declared
  nodup ty := by cases ty <;> decide

theorem y_reaches {D : Sample} (h : classes.Reaches .y D) : D = .y := by
  induction h with
  | refl => rfl
  | step _ hf hE ih =>
    obtain rfl := ih
    have hleads : ∀ field ∈ classes.buildFieldHints .y, classes.leadsTo field.2 = [] := by
      intro field hf
      fin_cases hf <;> rfl
    simp [hleads _ hf] at hE

/-- The values of `X(z=42, a="hello")`, sorted by their keys. -/
def hello : List (String × Value) := [("a", .string "hello"), ("z", .real ⟨0x4045000000000000⟩)]

def helloWire : Value := .vector [.string "hello", .real ⟨0x4045000000000000⟩]

example : (symbolic classes).kwargs ((symbolic classes).asRecord classes 0) classes .x (.record hello) =
    .ok (some [("z", .made .float (.native (Quot.mk _ (.float ⟨0x4045000000000000⟩)))),
      ("a", .made .str (.native (Quot.mk _ (.str "hello"))))]) := rfl

end Sample

end ZWS.Python
