import ZeekWebSocket.Spec.Dataclass
import ZeekWebSocket.Proofs.PythonRoundTrip

/-! A record and its wire form are decoded alike by dataclasses that declare their fields in the
order of a record's keys. -/

namespace ZWS.Python

open Base

namespace Value

/-- `w` is what `deserialize_json` makes of what `serialize_json` writes of `v`, if the JSON in
between gives back the value of the library that it is given. -/
def OnWire (v w : Value) : Prop := ∃ rv, toRust v = .ok rv ∧ ofRust rv = w

variable {v w : Value}

theorem OnWire.eq_of_recordFree (h : OnWire v w) (hc : v.Canonical) (hr : v.RecordFree) : w = v := by
  obtain ⟨rv, hrv, rfl⟩ := h
  obtain ⟨rv', hrv', hback⟩ := exists_same hc hr (exists_toRust_ok.mp ⟨rv, hrv⟩)
  obtain rfl := Outcome.ok.inj (hrv.symm.trans hrv')
  exact hback

theorem onWire_vector {xs : List Value} :
    OnWire (.vector xs) w ↔ ∃ ws, w = .vector ws ∧ List.Forall₂ OnWire xs ws := by
  refine ⟨?_, ?_⟩
  · intro h
    obtain ⟨rv, hrv, rfl⟩ := h
    rw [toRust_vector] at hrv
    obtain ⟨rvs, hrvs, hrv⟩ := Outcome.bind_eq_ok.mp hrv
    obtain rfl := Outcome.ok.inj hrv
    refine ⟨rvs.map ofRust, by rw [ofRust, ofRustSeq_eq], ?_⟩
    exact List.forall₂_map_right_iff.mpr ((Outcome.mapM_eq_ok.mp hrvs).imp fun _ rv h => ⟨rv, h, rfl⟩)
  · rintro ⟨ws, rfl, h⟩
    obtain ⟨rvs, hrvs, hws⟩ : ∃ rvs, List.Forall₂ (fun x rv => toRust x = .ok rv) xs rvs ∧
        List.Forall₂ (fun rv w => ofRust rv = w) rvs ws := by
      induction h with
      | nil => exact ⟨[], .nil, .nil⟩
      | cons hxw _ ih =>
        obtain ⟨rv, hrv, hw⟩ := hxw
        obtain ⟨rvs, hrvs, hws⟩ := ih
        exact ⟨rv :: rvs, .cons hrv hrvs, .cons hw hws⟩
    have hmap : rvs.map ofRust = ws := by
      rw [← List.forall₂_eq_eq_eq, List.forall₂_map_left_iff]
      exact hws
    refine ⟨.vector rvs, ?_, by rw [ofRust, ofRustSeq_eq, hmap]⟩
    rw [toRust_vector, Outcome.mapM_eq_ok.mpr hrvs]
    rfl

theorem onWire_record {fs : List (String × Value)} :
    OnWire (.record fs) w ↔ ∃ ws, w = .vector ws ∧ List.Forall₂ (fun f w => OnWire f.2 w) fs ws := by
  have h : OnWire (.record fs) w ↔ OnWire (.vector (fs.map Prod.snd)) w := by
    simp only [OnWire, toRust_record]
  rw [h, onWire_vector]
  simp only [List.forall₂_map_left_iff]

/-- A set on the wire holds wire forms of its elements, and something equal to each of them. -/
theorem OnWire.set {xs : List Value} (h : OnWire (.set xs) w) :
    ∃ ws, w = .set ws ∧ (∀ u ∈ ws, ∃ x ∈ xs, OnWire x u) ∧
      ∀ x ∈ xs, ∃ u', OnWire x u' ∧ ∃ u ∈ ws, u'.Equal u := by
  obtain ⟨rv, hrv, rfl⟩ := h
  rw [toRust_set] at hrv
  obtain ⟨rvs, hrvs, hrv⟩ := Outcome.bind_eq_ok.mp hrv
  obtain rfl := Outcome.ok.inj hrv
  refine ⟨_, by rw [ofRust, ofRustSeq_eq], ?_, ?_⟩
  · intro u hu
    obtain ⟨r, hr, rfl⟩ := List.mem_map.mp (mem_collectBy keepNew_picks hu)
    obtain ⟨x, hx, hxr⟩ := Outcome.mem_of_mapM hrvs (mem_collectBy keepNew_picks hr)
    exact ⟨x, hx, r, hxr, rfl⟩
  · intro x hx
    obtain ⟨r, hr, hxr⟩ := Outcome.exists_result hrvs hx
    obtain ⟨r', hr', heq⟩ : ∃ r' ∈ collectBy ZWS.Value.cmp keepNew rvs, ZWS.Value.cmp r r' = .eq :=
      exists_mem_collectBy keepNew_picks hr
    obtain ⟨u, hu, heq'⟩ :
        ∃ u ∈ collectBy cmp keepNew ((collectBy ZWS.Value.cmp keepNew rvs).map ofRust),
        cmp (ofRust r') u = .eq :=
      exists_mem_collectBy keepNew_picks (List.mem_map_of_mem hr')
    exact ⟨ofRust r, ⟨r, hxr, rfl⟩, u, hu, equal_iff.mpr
      ((equal_iff.mp (ofRust_equal heq)).trans (equal_iff.mp heq'))⟩

/-- A table on the wire is empty if it was. -/
theorem OnWire.table_nil {es : List (Value × Value)} (h : OnWire (.table es) w) :
    ∃ gs, w = .table gs ∧ (gs = [] ↔ es = []) := by
  obtain ⟨rv, hrv, rfl⟩ := h
  rw [toRust_table] at hrv
  obtain ⟨fs, hfs, hrv⟩ := Outcome.bind_eq_ok.mp hrv
  obtain rfl := Outcome.ok.inj hrv
  refine ⟨_, by rw [ofRust, ofRustEntries_eq], ?_⟩
  rw [collectBy_eq_nil, List.map_eq_nil_iff, collectBy_eq_nil,
    ← List.length_eq_zero_iff, ← List.length_eq_zero_iff, (Outcome.mapM_eq_ok.mp hfs).length_eq]

/-- Where the keys hold no records, no two of them are merged, and the entries stay in order. -/
theorem OnWire.table {es : List (Value × Value)} (h : OnWire (.table es) w)
    (hc : (table es).Canonical) (hkeys : ∀ e ∈ es, e.1.RecordFree) :
    ∃ gs, w = .table gs ∧ List.Forall₂ (fun e g => g.1 = e.1 ∧ OnWire e.2 g.2) es gs := by
  obtain ⟨hasc, hes⟩ := forall_parts_table.mp hc
  obtain ⟨rv, hrv, rfl⟩ := h
  rw [toRust_table] at hrv
  obtain ⟨fs, hfs, hrv⟩ := Outcome.bind_eq_ok.mp hrv
  obtain rfl := Outcome.ok.inj hrv
  have hsame : List.Forall₂ (fun e f => Same f.1 e.1 ∧ OnWire e.2 (ofRust f.2)) es fs := by
    refine forall₂_of_mem (Outcome.mapM_eq_ok.mp hfs) fun e he f hef => ?_
    obtain ⟨hk, hv⟩ := toRustEntry_eq_ok.mp hef
    have hback : ofRust f.1 = e.1 :=
      OnWire.eq_of_recordFree ⟨f.1, hk, rfl⟩ (hes e he).1 (hkeys e he)
    exact ⟨⟨hk, hback⟩, f.2, hv, rfl⟩
  have hdistinct : fs.Pairwise fun f g => byKey ZWS.Value.cmp g f ≠ .eq :=
    pairwise_of_forall₂ (R := fun e f => Same f.1 e.1 ∧ OnWire e.2 (ofRust f.2))
      (fun _ _ _ _ he hf hne heq => hne ((Same.equal_iff hf.1 he.1).mp heq)) hsame hasc.distinct
  have hgs : List.Forall₂ (fun e g => g.1 = e.1 ∧ OnWire e.2 g.2) es
      (fs.map fun f => (ofRust f.1, ofRust f.2)) :=
    List.forall₂_map_right_iff.mpr (hsame.imp fun _ _ h => ⟨h.1.2, h.2⟩)
  have hgasc : Ascending (byKey cmp) (fs.map fun f => (ofRust f.1, ofRust f.2)) :=
    pairwise_of_forall₂ (R := fun e g => g.1 = e.1 ∧ OnWire e.2 g.2)
      (fun _ _ _ _ he hf hlt => by rwa [byKey, he.1, hf.1]) hgs hasc
  refine ⟨_, ?_, hgs⟩
  rw [ofRust, ofRustEntries_eq]
  congr 1
  exact collectBy_of_perm keepNew_picks ((collectBy_perm keepNew_picks hdistinct).map _) hgasc

/-- What a dataclass can be made from. -/
def Recordish (v : Value) : Prop := (∃ xs, v = .vector xs) ∨ ∃ fs, v = .record fs

theorem OnWire.shape (h : OnWire v w) : (w.Recordish ↔ v.Recordish) ∧ (w = .none ↔ v = .none) := by
  cases v with
  | vector xs =>
    obtain ⟨ws, rfl, -⟩ := onWire_vector.mp h
    simp [Recordish]
  | record fs =>
    obtain ⟨ws, rfl, -⟩ := onWire_record.mp h
    simp [Recordish]
  | subnet a len =>
    obtain ⟨rv, hrv, rfl⟩ := h
    obtain ⟨n, -, hrv⟩ := Outcome.bind_eq_ok.mp hrv
    obtain rfl := Outcome.ok.inj hrv
    simp [Recordish, ofRust]
  | set xs =>
    obtain ⟨rv, hrv, rfl⟩ := h
    obtain ⟨rvs, -, hrv⟩ := Outcome.bind_eq_ok.mp hrv
    obtain rfl := Outcome.ok.inj hrv
    simp [Recordish, ofRust]
  | table es =>
    obtain ⟨rv, hrv, rfl⟩ := h
    obtain ⟨rvs, -, hrv⟩ := Outcome.bind_eq_ok.mp hrv
    obtain rfl := Outcome.ok.inj hrv
    simp [Recordish, ofRust]
  | _ =>
    obtain ⟨rv, hrv, rfl⟩ := h
    obtain rfl := Outcome.ok.inj hrv
    simp [Recordish, ofRust]

end Value

namespace FieldHint

variable {Ty : Type}

/-- The dataclasses that a hint names. -/
def names : FieldHint Ty → List Ty
  | .dataclass ty => [ty]
  | .optional inner => inner.names
  | .list elem => elem.names
  | .set elem => elem.names
  | .table key val => key.names ++ val.names
  | _ => []

/-- Those it names for the elements of a set. -/
def elements : FieldHint Ty → List Ty
  | .set elem => elem.names
  | _ => []

/-- Those it names for the keys of a dict. -/
def keys : FieldHint Ty → List Ty
  | .table key _ => key.names
  | _ => []

/-- A hint that is not made of others. -/
def IsLeaf : FieldHint Ty → Prop
  | .optional _ | .list _ | .set _ | .table _ _ => False
  | _ => True

/-- A hint as it is read from a declaration, which looks one level deep. -/
def Flat : FieldHint Ty → Prop
  | .optional inner => inner.IsLeaf
  | .list elem => elem.IsLeaf
  | .set elem => elem.IsLeaf
  | .table key val => key.IsLeaf ∧ val.IsLeaf
  | _ => True

/-- A leaf that names a dataclass is nothing else. -/
theorem IsLeaf.names_eq {h : FieldHint Ty} (hl : h.IsLeaf) : h.names = [] ∨ ∃ ty, h = .dataclass ty := by
  cases h with
  | dataclass ty => exact .inr ⟨ty, rfl⟩
  | optional inner => exact hl.elim
  | list elem => exact hl.elim
  | set elem => exact hl.elim
  | table key val => exact hl.elim
  | _ => exact .inl rfl

end FieldHint

namespace Classes

variable {Ty : Type} {C : Classes Ty} {D : Ty}

/-- The value holds records only where the hint names a dataclass, and with the names of its
fields for keys. -/
inductive Suits (C : Classes Ty) : FieldHint Ty → Value → Prop
  | bare {h : FieldHint Ty} {v : Value} : v.RecordFree → Suits C h v
  | record {ty : Ty} {fs : List (String × Value)} :
      (∀ k, k ∈ fs.map Prod.fst ↔ k ∈ (C.declared ty).map Prod.fst) →
      (∀ field ∈ C.buildFieldHints ty, ∀ v, (field.1, v) ∈ fs → Suits C field.2 v) →
      Suits C (.dataclass ty) (.record fs)
  | positional {ty : Ty} {xs : List Value} :
      (∀ p ∈ xs.zip (C.buildFieldHints ty), Suits C p.2.2 p.1) →
      (∀ x ∈ xs.drop (C.buildFieldHints ty).length, x.RecordFree) →
      Suits C (.dataclass ty) (.vector xs)
  | optional {inner : FieldHint Ty} {v : Value} : Suits C inner v → Suits C (.optional inner) v
  | list {elem : FieldHint Ty} {xs : List Value} :
      (∀ x ∈ xs, Suits C elem x) → Suits C (.list elem) (.vector xs)
  | set {elem : FieldHint Ty} {xs : List Value} :
      (∀ x ∈ xs, Suits C elem x) → Suits C (.set elem) (.set xs)
  | table {key val : FieldHint Ty} {es : List (Value × Value)} :
      (∀ e ∈ es, Suits C key e.1) → (∀ e ∈ es, Suits C val e.2) →
      Suits C (.table key val) (.table es)

theorem Suits.recordFree {h : FieldHint Ty} {v : Value} (hs : C.Suits h v) (hn : h.names = []) :
    v.RecordFree := by
  induction hs with
  | bare hr => exact hr
  | record => simp [FieldHint.names] at hn
  | positional => simp [FieldHint.names] at hn
  | optional _ ih => exact ih hn
  | list _ ih => exact Value.forall_parts_vector.mpr ⟨by simp, fun x hx => ih x hx hn⟩
  | set _ ih => exact Value.forall_parts_set.mpr ⟨by simp, fun x hx => ih x hx hn⟩
  | table _ _ ihk ihv =>
    obtain ⟨hk, hv⟩ := List.append_eq_nil_iff.mp hn
    exact Value.forall_parts_table.mpr ⟨by simp, fun e he => ⟨ihk e he hk, ihv e he hv⟩⟩

/-- The keys of a record for the class, in the order of the tree that holds it. -/
def sortedNames (C : Classes Ty) (D : Ty) : List String :=
  collectBy compareStr keepNew ((C.declared D).map Prod.fst)

/-- Each declared field with the key whose value stands at its position on the wire. -/
def positions (C : Classes Ty) (D : Ty) : List ((String × FieldHint Ty) × String) :=
  (C.buildFieldHints D).zip (C.sortedNames D)

theorem classifyType_isLeaf (ty : Ty) : (C.classifyType ty).IsLeaf := by
  unfold classifyType
  split_ifs <;> trivial

theorem classifyGenericArg_isLeaf (arg : Option Ty) : (C.classifyGenericArg arg).IsLeaf := by
  cases arg with
  | none => trivial
  | some ty => exact classifyType_isLeaf ty

theorem flat_of_isLeaf {h : FieldHint Ty} (hl : h.IsLeaf) : h.Flat := by
  cases h <;> trivial

theorem fieldHint_flat (a : Annotation Ty) : (C.fieldHint a).Flat := by
  cases a with
  | type ty => exact flat_of_isLeaf (classifyType_isLeaf ty)
  | union args =>
    simp only [fieldHint]
    split
    · exact classifyGenericArg_isLeaf _
    · trivial
  | list elem => exact classifyGenericArg_isLeaf elem
  | set elem => exact classifyGenericArg_isLeaf elem
  | dict key val => exact ⟨classifyGenericArg_isLeaf key, classifyGenericArg_isLeaf val⟩
  | other => trivial

theorem buildFieldHints_flat {field : String × FieldHint Ty} (hf : field ∈ C.buildFieldHints D) :
    field.2.Flat := by
  obtain ⟨f, -, rfl⟩ := List.mem_map.mp hf
  exact fieldHint_flat f.2

theorem buildFieldHints_names : (C.buildFieldHints D).map Prod.fst = (C.declared D).map Prod.fst := by
  simp [buildFieldHints, List.map_map, Function.comp_def]

theorem sortedNames_perm : (C.sortedNames D).Perm ((C.buildFieldHints D).map Prod.fst) := by
  rw [buildFieldHints_names]
  exact collectBy_perm keepNew_picks ((C.nodup D).imp fun hne he => hne (compareStr_eq_eq.mp he).symm)

theorem sortedNames_nodup : (C.sortedNames D).Nodup := by
  rw [sortedNames_perm.nodup_iff, buildFieldHints_names]
  exact C.nodup D

theorem sortedNames_ascending : Ascending compareStr (C.sortedNames D) :=
  collectBy_ascending keepNew_picks _

theorem positions_length : (C.buildFieldHints D).length = (C.sortedNames D).length := by
  rw [sortedNames_perm.length_eq, List.length_map]

theorem positions_fields : (C.positions D).map Prod.fst = C.buildFieldHints D :=
  List.map_fst_zip positions_length.le

theorem positions_keys : (C.positions D).map Prod.snd = C.sortedNames D :=
  List.map_snd_zip positions_length.ge

theorem positions_names_nodup : ((C.positions D).map fun p => p.1.1).Nodup := by
  have h : ((C.positions D).map fun p => p.1.1) = (C.declared D).map Prod.fst := by
    rw [← buildFieldHints_names, ← positions_fields, List.map_map]
    rfl
  rw [h]
  exact C.nodup D

theorem position_of_name {p q : (String × FieldHint Ty) × String} (hp : p ∈ C.positions D)
    (hq : q ∈ C.positions D) (h : p.1.1 = q.1.1) : p = q :=
  List.inj_on_of_nodup_map positions_names_nodup hp hq h

theorem position_of_key {p q : (String × FieldHint Ty) × String} (hp : p ∈ C.positions D)
    (hq : q ∈ C.positions D) (h : p.2 = q.2) : p = q :=
  List.inj_on_of_nodup_map (positions_keys ▸ sortedNames_nodup) hp hq h

theorem mem_sortedNames {k : String} :
    k ∈ C.sortedNames D ↔ ∃ p ∈ C.positions D, p.1.1 = k := by
  rw [sortedNames_perm.mem_iff, ← positions_fields, List.map_map, List.mem_map]
  rfl

theorem mem_sortedNames_key {k : String} :
    k ∈ C.sortedNames D ↔ ∃ p ∈ C.positions D, p.2 = k := by
  rw [← positions_keys, List.mem_map]

/-- A record of the class, by the value of each field. -/
def record (C : Classes Ty) (D : Ty) (y : String → Value) : Value :=
  .record ((C.sortedNames D).map fun k => (k, y k))

/-- A record as a vector of its values. -/
def wire (C : Classes Ty) (D : Ty) (y : String → Value) : Value :=
  .vector ((C.sortedNames D).map y)

theorem exists_map_eq {α : Type} {ks : List String} (h : ks.Nodup) {xs : List α}
    (hlen : xs.length = ks.length) (default : α) : ∃ y : String → α, ks.map y = xs := by
  induction ks generalizing xs with
  | nil => exact ⟨fun _ => default, (List.eq_nil_of_length_eq_zero hlen).symm⟩
  | cons k ks ih =>
    obtain ⟨hk, hks⟩ := List.nodup_cons.mp h
    cases xs with
    | nil => simp at hlen
    | cons x xs =>
      obtain ⟨y, rfl⟩ := ih hks (by simpa using hlen)
      refine ⟨Function.update y k x, ?_⟩
      have htail : ks.map (Function.update y k x) = ks.map y :=
        List.map_congr_left fun l hl => Function.update_of_ne (fun he => hk (by rwa [← he])) x y
      rw [List.map_cons, Function.update_self, htail]

theorem exists_record {fs : List (String × Value)} (hasc : Ascending (byKey compareStr) fs)
    (hkeys : ∀ k, k ∈ fs.map Prod.fst ↔ k ∈ (C.declared D).map Prod.fst) :
    ∃ y, Value.record fs = C.record D y := by
  have hfst : Ascending compareStr (fs.map Prod.fst) := List.pairwise_map.mpr hasc
  have hnodup : (fs.map Prod.fst).Nodup := hfst.distinct.imp fun hne he =>
    hne (compareStr_eq_eq.mpr he.symm)
  have hperm : ((C.declared D).map Prod.fst).Perm (fs.map Prod.fst) :=
    (List.perm_ext_iff_of_nodup (C.nodup D) hnodup).mpr fun k => (hkeys k).symm
  have hsorted : C.sortedNames D = fs.map Prod.fst := collectBy_of_perm keepNew_picks hperm hfst
  obtain ⟨y, hy⟩ : ∃ y : String → Value, (fs.map Prod.fst).map y = fs.map Prod.snd :=
    exists_map_eq hnodup (by simp) .none
  refine ⟨y, ?_⟩
  have hpairs : ((C.sortedNames D).map fun k => (k, y k)) = fs := by
    rw [List.map_map, List.map_inj_left] at hy
    have hid : (fs.map fun f => (f.1, y f.1)) = fs.map id :=
      List.map_congr_left fun f hf => Prod.ext rfl (hy f hf)
    rw [hsorted, List.map_map]
    exact hid.trans (List.map_id fs)
  rw [record, hpairs]

theorem onWire_record {y : String → Value} {w : Value} : Value.OnWire (C.record D y) w ↔
    ∃ y', w = C.wire D y' ∧ ∀ k ∈ C.sortedNames D, Value.OnWire (y k) (y' k) := by
  rw [record, Value.onWire_record]
  refine ⟨?_, ?_⟩
  · rintro ⟨ws, rfl, h⟩
    rw [List.forall₂_map_left_iff] at h
    obtain ⟨y', rfl⟩ := exists_map_eq (C.sortedNames_nodup (D := D)) h.length_eq.symm .none
    refine ⟨y', rfl, ?_⟩
    rwa [List.forall₂_map_right_iff, List.forall₂_same] at h
  · rintro ⟨y', rfl, h⟩
    refine ⟨_, rfl, ?_⟩
    rw [List.forall₂_map_left_iff, List.forall₂_map_right_iff, List.forall₂_same]
    exact h

theorem lookup_map {y : String → Value} {ks : List String} {k : String} (hk : k ∈ ks) :
    (ks.map fun k => (k, y k)).lookup k = some (y k) := by
  induction ks with
  | nil => simp at hk
  | cons l ks ih =>
    by_cases he : k = l
    · subst he
      exact List.lookup_cons_self
    · have hne : (k == l) = false := by simp [he]
      rw [List.map_cons, List.lookup_cons, hne]
      exact ih (List.mem_of_ne_of_mem he hk)

/-- A hint for a class without fields, which is made alike from all that it is made from. -/
def Fieldless (C : Classes Ty) (h : FieldHint Ty) : Prop :=
  ∃ ty, h = .dataclass ty ∧ C.declared ty = []

/-- The class declares its fields in the order of their names, up to those hinted as classes
without fields. A dataclass it names for the elements of a set is compared by value or not at all,
and one it names for the keys of a dict has no hash. -/
structure WireReady (C : Classes Ty) (D : Ty) : Prop where
  inOrder : ∀ p ∈ C.positions D, p.1.1 = p.2 ∨ C.Fieldless p.1.2
  elements : ∀ field ∈ C.buildFieldHints D, ∀ ty ∈ field.2.elements, C.hashing ty ≠ .arbitrary
  keys : ∀ field ∈ C.buildFieldHints D, ∀ ty ∈ field.2.keys, C.hashing ty = .unhashable

/-- The dataclasses that a hint names and whose instances are in what is made under it. Sets of
what has no hash are never made, nor are dicts with such keys. -/
def leadsTo (C : Classes Ty) : FieldHint Ty → List Ty
  | .dataclass ty => [ty]
  | .optional inner => inner.names
  | .list elem => elem.names
  | .set elem => elem.names.filter fun ty => C.hashing ty = .byValue
  | .table key val => if key.names.isEmpty then val.names else []
  | _ => []

/-- The dataclasses that `T` leads to. -/
inductive Reaches (C : Classes Ty) (T : Ty) : Ty → Prop
  | refl : Reaches C T T
  | step {D E : Ty} {field : String × FieldHint Ty} : Reaches C T D →
      field ∈ C.buildFieldHints D → E ∈ C.leadsTo field.2 → Reaches C T E

theorem Reaches.trans {T D E : Ty} (h : C.Reaches T D) (h' : C.Reaches D E) : C.Reaches T E := by
  induction h' with
  | refl => exact h
  | step _ hf hE ih => exact .step ih hf hE

/-- The field whose value stands at a wrong position is fieldless as well. -/
theorem WireReady.fieldless_of_key (h : C.WireReady D) {p : (String × FieldHint Ty) × String}
    (hp : p ∈ C.positions D) (hne : p.1.1 ≠ p.2) :
    ∃ q ∈ C.positions D, q.1.1 = p.2 ∧ C.Fieldless q.1.2 := by
  obtain ⟨q, hq, hqp⟩ := mem_sortedNames.mp (mem_sortedNames_key.mpr ⟨p, hp, rfl⟩)
  refine ⟨q, hq, hqp, (h.inOrder q hq).resolve_left fun heq => ?_⟩
  obtain rfl := position_of_key hq hp (heq.symm.trans hqp)
  exact hne hqp

/-- And so is the one at whose position its own value stands. -/
theorem WireReady.fieldless_of_name (h : C.WireReady D) {p : (String × FieldHint Ty) × String}
    (hp : p ∈ C.positions D) (hne : p.1.1 ≠ p.2) :
    ∃ q ∈ C.positions D, q.2 = p.1.1 ∧ C.Fieldless q.1.2 := by
  obtain ⟨q, hq, hqp⟩ := mem_sortedNames_key.mp (mem_sortedNames.mpr ⟨p, hp, rfl⟩)
  refine ⟨q, hq, hqp, (h.inOrder q hq).resolve_left fun heq => ?_⟩
  obtain rfl := position_of_name hq hp (heq.trans hqp)
  exact hne hqp.symm

end Classes

namespace Interpreter

open Classes

variable {Ty Obj : Type} {py : Interpreter Ty Obj} {C : Classes Ty} {D : Ty}
  {asRecord : Ty → Value → Outcome PyException (Option Obj)}

theorem typedValues_record (y : String → Value) : typedValues C D (C.record D y) =
    some ((C.positions D).map fun p => (p.1.1, y p.1.1, p.1.2)) := by
  have hlookup : ∀ field ∈ C.buildFieldHints D,
      ((((C.sortedNames D).map fun k => (k, y k)).lookup field.1).map fun v =>
        (field.1, v, field.2)) = some (field.1, y field.1, field.2) := fun field hfield => by
    have hmem : field.1 ∈ C.sortedNames D :=
      sortedNames_perm.mem_iff.mpr (List.mem_map_of_mem hfield)
    rw [lookup_map hmem]
    rfl
  rw [record, typedValues, List.filterMap_congr hlookup]
  conv_lhs => rw [← positions_fields]
  simp [List.filterMap_map]

theorem typedValues_wire (y : String → Value) : typedValues C D (C.wire D y) =
    some ((C.positions D).map fun p => (p.1.1, y p.2, p.1.2)) := by
  rw [wire, typedValues, List.zip_map_left, ← List.zip_swap, ← positions, List.map_map, List.map_map]
  rfl

theorem typedValues_eq_none {v : Value} (h : ¬ v.Recordish) : typedValues C D v = none := by
  cases v with
  | vector xs => exact absurd (.inl ⟨xs, rfl⟩) h
  | record fs => exact absurd (.inr ⟨fs, rfl⟩) h
  | _ => rfl

theorem kwargs_eq_some {v : Value} {kw : List (String × Obj)} :
    py.kwargs asRecord C D v = .ok (some kw) ↔ C.isDataclass D = true ∧
      ∃ args, typedValues C D v = some args ∧ args.mapM (py.convertArg asRecord) = .ok kw := by
  unfold kwargs
  cases C.isDataclass D with
  | false => simp
  | true =>
    cases typedValues C D v with
    | none => simp
    | some args => simp [Outcome.bind_eq_ok]

theorem convert_dataclass {n : ℕ} {v : Value} {o : Obj} :
    py.convertField (py.asRecord C n) (.dataclass D) v = .ok o ↔
      ∃ m kw, n = m + 1 ∧ py.kwargs (py.asRecord C m) C D v = .ok (some kw) ∧
        py.call D kw = some o := by
  simp only [convertField, Outcome.bind_eq_ok, Outcome.ofOption_eq_ok, exists_eq_right]
  cases n with
  | zero => simp [Interpreter.asRecord]
  | succ n =>
    simp only [Interpreter.asRecord, Outcome.bind_eq_ok]
    refine ⟨?_, ?_⟩
    · intro h
      obtain ⟨kw, hkw, h⟩ := h
      cases kw with
      | none => simp at h
      | some kw =>
        obtain ⟨o', ho', h⟩ := Outcome.bind_eq_ok.mp h
        obtain rfl := Option.some.inj (Outcome.ok.inj h)
        exact ⟨n, kw, rfl, hkw, Outcome.ofOption_eq_ok.mp ho'⟩
    · rintro ⟨m, kw, hm, hkw, ho⟩
      obtain rfl := Nat.succ.inj hm
      exact ⟨some kw, hkw, Outcome.bind_eq_ok.mpr ⟨o, Outcome.ofOption_eq_ok.mpr ho, rfl⟩⟩

/-- A class without fields is called without arguments, whatever it is made from. -/
theorem kwargs_fieldless (hD : C.declared D = []) {v : Value} {kw : List (String × Obj)} :
    py.kwargs asRecord C D v = .ok (some kw) ↔
      C.isDataclass D = true ∧ v.Recordish ∧ kw = [] := by
  have hhints : C.buildFieldHints D = [] := by simp [buildFieldHints, hD]
  have hnil : ([] : List (String × Value × FieldHint Ty)).mapM (py.convertArg asRecord) = .ok kw ↔
      kw = [] := ⟨fun h => (Outcome.ok.inj h).symm, fun h => h ▸ rfl⟩
  rw [kwargs_eq_some]
  cases v <;> simp [typedValues, hhints, Value.Recordish, hnil, -List.mapM_nil]

theorem convert_fieldless {h : FieldHint Ty} (hh : C.Fieldless h) {n : ℕ} {v w : Value} {o : Obj}
    (hv : py.convertField (py.asRecord C n) h v = .ok o) :
    v.Recordish ∧ (w.Recordish → py.convertField (py.asRecord C n) h w = .ok o) := by
  obtain ⟨E, rfl, hE⟩ := hh
  obtain ⟨m, kw, rfl, hkw, ho⟩ := convert_dataclass.mp hv
  obtain ⟨hdata, hrec, rfl⟩ := (kwargs_fieldless hE).mp hkw
  exact ⟨hrec, fun hw => convert_dataclass.mpr
    ⟨m, [], rfl, (kwargs_fieldless hE).mpr ⟨hdata, hw, rfl⟩, ho⟩⟩

theorem convertArg_eq_ok {arg : String × Value × FieldHint Ty} {kv : String × Obj} :
    py.convertArg asRecord arg = .ok kv ↔
      py.convertField asRecord arg.2.2 arg.2.1 = .ok kv.2 ∧ arg.1 = kv.1 := by
  simp only [convertArg, Outcome.bind_eq_ok, Outcome.pure_def, Outcome.ok.injEq, Prod.ext_iff]
  refine ⟨?_, fun h => ⟨kv.2, h.1, h.2, rfl⟩⟩
  rintro ⟨o, ho, hkey, rfl⟩
  exact ⟨ho, hkey⟩

theorem kwargs_of_typedValues {v : Value} {args : List (String × Value × FieldHint Ty)}
    (h : typedValues C D v = some args) (hD : C.isDataclass D = true) :
    py.kwargs asRecord C D v = args.mapM (py.convertArg asRecord) >>= fun kw => .ok (some kw) := by
  simp [kwargs, hD, h]

/-- Fields that are decoded alike by name and in place make the same keyword arguments. -/
theorem kwargs_record_agree (hready : C.WireReady D) {n : ℕ} {y y' : String → Value}
    (hwire : ∀ k ∈ C.sortedNames D, Value.OnWire (y k) (y' k))
    (hfields : ∀ field ∈ C.buildFieldHints D,
      (py.convertField (py.asRecord C n) field.2 (y field.1)).Agree
        (py.convertField (py.asRecord C n) field.2 (y' field.1))) :
    (py.kwargs (py.asRecord C n) C D (C.record D y)).Agree
      (py.kwargs (py.asRecord C n) C D (C.wire D y')) := by
  cases hD : C.isDataclass D with
  | false =>
    have heq : py.kwargs (py.asRecord C n) C D (C.record D y) =
        py.kwargs (py.asRecord C n) C D (C.wire D y') := by simp [kwargs, hD]
    rw [heq]
    exact .refl _
  | true =>
    have hplace : ∀ p ∈ C.positions D, p.1.1 = p.2 →
        (py.convertField (py.asRecord C n) p.1.2 (y p.1.1)).Agree
          (py.convertField (py.asRecord C n) p.1.2 (y' p.2)) := fun p hp heq => by
      rw [← heq]
      exact hfields p.1 (positions_fields ▸ List.mem_map_of_mem hp)
    have hshape : ∀ p ∈ C.positions D, ((y' p.2).Recordish ↔ (y p.2).Recordish) := fun p hp =>
      (hwire p.2 (mem_sortedNames_key.mpr ⟨p, hp, rfl⟩)).shape.1
    rw [kwargs_of_typedValues (typedValues_record y) hD, kwargs_of_typedValues (typedValues_wire y') hD,
      List.mapM_map, List.mapM_map]
    refine Outcome.Agree.bind (fun kw => ⟨fun h => ?_, fun h => ?_⟩) fun _ => .refl _
    · have hall := Outcome.exists_mapM_ok.mp ⟨kw, h⟩
      refine Outcome.mapM_ok_of_forall₂ (List.forall₂_same.mpr fun p hp kv hkv => ?_) h
      obtain ⟨ho, hkey⟩ := convertArg_eq_ok.mp hkv
      refine convertArg_eq_ok.mpr ⟨?_, hkey⟩
      by_cases heq : p.1.1 = p.2
      · exact (hplace p hp heq _).mp ho
      · obtain ⟨q, hq, hqp, hfq⟩ := hready.fieldless_of_key hp heq
        obtain ⟨kv', hkv'⟩ := hall q hq
        have hrec : (y q.1.1).Recordish := (convert_fieldless hfq (w := .none) (convertArg_eq_ok.mp hkv').1).1
        have hfp : C.Fieldless p.1.2 := (hready.inOrder p hp).resolve_left heq
        exact (convert_fieldless hfp ho).2 ((hshape p hp).mpr (hqp ▸ hrec))
    · have hall := Outcome.exists_mapM_ok.mp ⟨kw, h⟩
      refine Outcome.mapM_ok_of_forall₂ (List.forall₂_same.mpr fun p hp kv hkv => ?_) h
      obtain ⟨ho, hkey⟩ := convertArg_eq_ok.mp hkv
      refine convertArg_eq_ok.mpr ⟨?_, hkey⟩
      by_cases heq : p.1.1 = p.2
      · exact (hplace p hp heq _).mpr ho
      · obtain ⟨q, hq, hqp, hfq⟩ := hready.fieldless_of_name hp heq
        obtain ⟨kv', hkv'⟩ := hall q hq
        have hrec : (y' q.2).Recordish := (convert_fieldless hfq (w := .none) (convertArg_eq_ok.mp hkv').1).1
        have hfp : C.Fieldless p.1.2 := (hready.inOrder p hp).resolve_left heq
        have hrecord : (y p.1.1).Recordish := hqp ▸ (hshape q hq).mp hrec
        exact (convert_fieldless hfp ho).2 hrecord

/-- A vector is matched by position on both sides of the wire. -/
theorem kwargs_vector_agree {xs ws : List Value} (hlen : xs.length = ws.length)
    (hfields : ∀ p ∈ (xs.zip ws).zip (C.buildFieldHints D),
      (py.convertField asRecord p.2.2 p.1.1).Agree (py.convertField asRecord p.2.2 p.1.2)) :
    (py.kwargs asRecord C D (.vector xs)).Agree (py.kwargs asRecord C D (.vector ws)) := by
  cases hD : C.isDataclass D with
  | false => simp [kwargs, hD]
  | true =>
    have hxs : ((xs.zip ws).zip (C.buildFieldHints D)).map (fun p => (p.2.1, p.1.1, p.2.2)) =
        (xs.zip (C.buildFieldHints D)).map fun p => (p.2.1, p.1, p.2.2) := by
      conv_rhs => rw [← List.map_fst_zip hlen.le, List.zip_map_left, List.map_map]
      rfl
    have hws : ((xs.zip ws).zip (C.buildFieldHints D)).map (fun p => (p.2.1, p.1.2, p.2.2)) =
        (ws.zip (C.buildFieldHints D)).map fun p => (p.2.1, p.1, p.2.2) := by
      conv_rhs => rw [← List.map_snd_zip hlen.ge, List.zip_map_left, List.map_map]
      rfl
    have harg : ∀ p ∈ (xs.zip ws).zip (C.buildFieldHints D),
        (py.convertArg asRecord (p.2.1, p.1.1, p.2.2)).Agree
          (py.convertArg asRecord (p.2.1, p.1.2, p.2.2)) := fun p hp =>
      (hfields p hp).bind fun _ => .refl _
    rw [kwargs_of_typedValues rfl hD, kwargs_of_typedValues rfl hD, ← hxs, ← hws, List.mapM_map,
      List.mapM_map]
    exact (Outcome.Agree.mapM (List.forall₂_same.mpr harg)).bind fun _ => .refl _

theorem convert_optional {inner : FieldHint Ty} {v : Value} (h : v ≠ .none) :
    py.convertField asRecord (.optional inner) v = py.convertField asRecord inner v := by
  cases v <;> first | rfl | exact absurd rfl h

/-- If the dataclass that a leaf names agrees on a value and its wire form, so does the leaf. -/
theorem convert_agree_leaf {h : FieldHint Ty} (hl : h.IsLeaf)
    (hrec : ∀ E ∈ h.names, ∀ v w, C.Suits (.dataclass E) v → v.Canonical → Value.OnWire v w →
      (asRecord E v).Agree (asRecord E w))
    {v w : Value} (hs : C.Suits h v) (hc : v.Canonical) (hw : Value.OnWire v w) :
    (py.convertField asRecord h v).Agree (py.convertField asRecord h w) := by
  rcases hl.names_eq with hn | ⟨E, rfl⟩
  · rw [hw.eq_of_recordFree hc (hs.recordFree hn)]
    exact .refl _
  · refine (hrec E (by simp [FieldHint.names]) v w hs hc hw).bind fun made o => ?_
    rw [Outcome.ofOption_eq_ok, Outcome.ofOption_eq_ok]

theorem madeBy_of_convert {n : ℕ} {E : Ty} {v : Value} {o : Obj}
    (h : py.convertField (py.asRecord C n) (.dataclass E) v = .ok o) : py.MadeBy C (C.hashing E) o := by
  obtain ⟨-, kw, -, -, ho⟩ := convert_dataclass.mp h
  exact ⟨E, kw, rfl, ho⟩

theorem convert_set_unhashable (hpy : py.Lawful C) {n : ℕ} {E : Ty} (hE : C.hashing E = .unhashable)
    {xs : List Value} (hne : xs ≠ []) (o : Obj) :
    py.convertField (py.asRecord C n) (.set (.dataclass E)) (.set xs) ≠ .ok o := by
  intro h
  obtain ⟨os, hos, ho⟩ := Outcome.bind_eq_ok.mp h
  obtain ⟨x, hx⟩ := List.exists_mem_of_ne_nil xs hne
  obtain ⟨p, hp, hxp⟩ := Outcome.exists_result hos hx
  rw [hpy.unhashableElement os p hp (hE ▸ madeBy_of_convert hxp)] at ho
  simp [Outcome.ofOption] at ho

theorem convert_table_unhashable (hpy : py.Lawful C) {n : ℕ} {E : Ty} (hE : C.hashing E = .unhashable)
    {val : FieldHint Ty} {es : List (Value × Value)} (hne : es ≠ []) (o : Obj) :
    py.convertField (py.asRecord C n) (.table (.dataclass E) val) (.table es) ≠ .ok o := by
  intro h
  cases es with
  | nil => exact hne rfl
  | cons e es =>
    simp only [convertField, List.foldlM_cons] at h
    obtain ⟨dict, hdict, -⟩ := Outcome.bind_eq_ok.mp h
    obtain ⟨k, hk, hdict⟩ := Outcome.bind_eq_ok.mp hdict
    obtain ⟨a, -, hdict⟩ := Outcome.bind_eq_ok.mp hdict
    rw [hpy.unhashableKey k (hE ▸ madeBy_of_convert hk)] at hdict
    simp [Outcome.ofOption] at hdict

/-- Sets of instances that are compared by value hold the same on both sides of the wire. -/
theorem convert_set_byValue (hpy : py.Lawful C) {n : ℕ} {E : Ty} (hE : C.hashing E = .byValue)
    {xs ws : List Value}
    (hback : ∀ u ∈ ws, ∃ x ∈ xs, (py.asRecord C n E x).Agree (py.asRecord C n E u))
    (hforth : ∀ x ∈ xs, ∃ u ∈ ws, (py.asRecord C n E x).Agree (py.asRecord C n E u)) :
    (py.convertField (py.asRecord C n) (.set (.dataclass E)) (.set xs)).Agree
      (py.convertField (py.asRecord C n) (.set (.dataclass E)) (.set ws)) := by
  have hconvert : ∀ x u, (py.asRecord C n E x).Agree (py.asRecord C n E u) →
      (py.convertField (py.asRecord C n) (.dataclass E) x).Agree
        (py.convertField (py.asRecord C n) (.dataclass E) u) := by
    intro x u h
    refine h.bind fun made o => ?_
    rw [Outcome.ofOption_eq_ok, Outcome.ofOption_eq_ok]
  have hmade : ∀ {vs : List Value} {os : List Obj},
      vs.mapM (py.convertField (py.asRecord C n) (.dataclass E)) = .ok os →
      ∀ o ∈ os, py.MadeBy C .byValue o := by
    intro vs os hos o ho
    obtain ⟨v, -, hv⟩ := Outcome.mem_of_mapM hos ho
    exact hE ▸ madeBy_of_convert hv
  have hxs : ∀ x ∈ xs, ∃ u ∈ ws, (py.convertField (py.asRecord C n) (.dataclass E) x).Agree
      (py.convertField (py.asRecord C n) (.dataclass E) u) := by
    intro x hx
    obtain ⟨u, hu, hagree⟩ := hforth x hx
    exact ⟨u, hu, hconvert x u hagree⟩
  have hws : ∀ u ∈ ws, ∃ x ∈ xs, (py.convertField (py.asRecord C n) (.dataclass E) x).Agree
      (py.convertField (py.asRecord C n) (.dataclass E) u) := by
    intro u hu
    obtain ⟨x, hx, hagree⟩ := hback u hu
    exact ⟨x, hx, hconvert x u hagree⟩
  intro o
  simp only [convertField, Outcome.bind_eq_ok]
  refine ⟨?_, ?_⟩
  · rintro ⟨os, hos, ho⟩
    obtain ⟨os', hos', hsame⟩ := Outcome.mapM_members hxs hws hos
    exact ⟨os', hos', hpy.set os os' (hmade hos) hsame ▸ ho⟩
  · rintro ⟨os, hos, ho⟩
    obtain ⟨os', hos', hsame⟩ := Outcome.mapM_members
      (fun u hu => (hws u hu).imp fun x hx => ⟨hx.1, hx.2.symm⟩)
      (fun x hx => (hxs x hx).imp fun u hu => ⟨hu.1, hu.2.symm⟩) hos
    exact ⟨os', hos', hpy.set os os' (hmade hos) hsame ▸ ho⟩

/-- If the dataclasses that a hint leads to agree on a value and its wire form, so does the hint. -/
theorem convert_agree (hpy : py.Lawful C) {n : ℕ} {h : FieldHint Ty} (hflat : h.Flat)
    (helements : ∀ E ∈ h.elements, C.hashing E ≠ .arbitrary)
    (hkeys : ∀ E ∈ h.keys, C.hashing E = .unhashable)
    (hrec : ∀ E ∈ C.leadsTo h, ∀ v w, C.Suits (.dataclass E) v → v.Canonical → Value.OnWire v w →
      (py.asRecord C n E v).Agree (py.asRecord C n E w))
    {v w : Value} (hs : C.Suits h v) (hc : v.Canonical) (hw : Value.OnWire v w) :
    (py.convertField (py.asRecord C n) h v).Agree (py.convertField (py.asRecord C n) h w) := by
  cases h with
  | optional inner =>
    have hinner : C.Suits inner v := by
      cases hs with
      | bare hr => exact .bare hr
      | optional hs => exact hs
    by_cases hv : v = .none
    · obtain rfl := hw.shape.2.mpr hv
      rw [hv]
      exact .refl _
    · rw [convert_optional hv, convert_optional (mt hw.shape.2.mp hv)]
      exact convert_agree_leaf hflat hrec hinner hc hw
  | list elem =>
    cases hs with
    | bare hr =>
      rw [hw.eq_of_recordFree hc hr]
      exact .refl _
    | @list _ xs hs =>
      obtain ⟨ws, rfl, hws⟩ := Value.onWire_vector.mp hw
      obtain ⟨-, hcs⟩ := Value.forall_parts_vector.mp hc
      have hall : List.Forall₂ (fun x w => (py.convertField (py.asRecord C n) elem x).Agree
          (py.convertField (py.asRecord C n) elem w)) xs ws :=
        forall₂_of_mem hws fun x hx w hxw => convert_agree_leaf hflat hrec (hs x hx) (hcs x hx) hxw
      exact (Outcome.Agree.mapM hall).bind fun _ => .refl _
  | set elem =>
    cases hs with
    | bare hr =>
      rw [hw.eq_of_recordFree hc hr]
      exact .refl _
    | @set _ xs hs =>
      rcases hflat.names_eq with hn | ⟨E, rfl⟩
      · have hr : (Value.set xs).RecordFree :=
          Value.forall_parts_set.mpr ⟨by simp, fun x hx => (hs x hx).recordFree hn⟩
        rw [hw.eq_of_recordFree hc hr]
        exact .refl _
      obtain ⟨ws, rfl, hback, hforth⟩ := hw.set
      obtain ⟨-, hcs⟩ := Value.forall_parts_set.mp hc
      cases hE : C.hashing E with
      | arbitrary => exact absurd hE (helements E (by simp [FieldHint.elements, FieldHint.names]))
      | unhashable =>
        by_cases hne : xs = []
        · subst hne
          obtain rfl : ws = [] := List.eq_nil_iff_forall_not_mem.mpr fun u hu => by simpa using hback u hu
          exact .refl _
        · obtain ⟨x, hx⟩ := List.exists_mem_of_ne_nil xs hne
          obtain ⟨-, -, u, hu, -⟩ := hforth x hx
          intro o
          exact iff_of_false (convert_set_unhashable hpy hE hne o)
            (convert_set_unhashable hpy hE (List.ne_nil_of_mem hu) o)
      | byValue =>
        have hmem : E ∈ C.leadsTo (.set (.dataclass E)) := by simp [leadsTo, FieldHint.names, hE]
        refine convert_set_byValue hpy hE (fun u hu => ?_) fun x hx => ?_
        · obtain ⟨x, hx, hxu⟩ := hback u hu
          exact ⟨x, hx, hrec E hmem x u (hs x hx) (hcs x hx) hxu⟩
        · obtain ⟨u', hxu, u, hu, heq⟩ := hforth x hx
          exact ⟨u, hu, (hrec E hmem x u' (hs x hx) (hcs x hx) hxu).trans (hpy.equal E hE n u' u heq)⟩
  | table key val =>
    cases hs with
    | bare hr =>
      rw [hw.eq_of_recordFree hc hr]
      exact .refl _
    | @table _ _ es hk hv =>
      rcases hflat.1.names_eq with hn | ⟨E, rfl⟩
      · obtain ⟨-, hcs⟩ := Value.forall_parts_table.mp hc
        obtain ⟨gs, rfl, hgs⟩ := hw.table hc fun e he => (hk e he).recordFree hn
        have hval : ∀ E ∈ val.names, E ∈ C.leadsTo (.table key val) := by simp [leadsTo, hn]
        refine Outcome.Agree.foldlM (forall₂_of_mem hgs fun e he g heg dict => ?_) _
        rw [heg.1]
        refine (Outcome.Agree.refl _).bind fun k => Outcome.Agree.bind ?_ fun _ => .refl _
        exact convert_agree_leaf hflat.2 (fun E hE => hrec E (hval E hE)) (hv e he) (hcs e he).2 heg.2
      · have hE : C.hashing E = .unhashable := hkeys E (by simp [FieldHint.keys, FieldHint.names])
        obtain ⟨gs, rfl, hnil⟩ := hw.table_nil
        by_cases hne : es = []
        · rw [hnil.mpr hne, hne]
          exact .refl _
        · intro o
          exact iff_of_false (convert_table_unhashable hpy hE hne o)
            (convert_table_unhashable hpy hE (mt hnil.mp hne) o)
  | dataclass E => exact convert_agree_leaf (h := .dataclass E) trivial hrec hs hc hw
  | _ =>
    have hr : v.RecordFree := hs.recordFree rfl
    rw [hw.eq_of_recordFree hc hr]
    exact .refl _

theorem kwargs_agree (hpy : py.Lawful C) {n : ℕ} (hready : C.WireReady D)
    (hrec : ∀ field ∈ C.buildFieldHints D, ∀ E ∈ C.leadsTo field.2, ∀ v w,
      C.Suits (.dataclass E) v → v.Canonical → Value.OnWire v w →
        (py.asRecord C n E v).Agree (py.asRecord C n E w))
    {v w : Value} (hs : C.Suits (.dataclass D) v) (hc : v.Canonical) (hw : Value.OnWire v w) :
    (py.kwargs (py.asRecord C n) C D v).Agree (py.kwargs (py.asRecord C n) C D w) := by
  have hfield : ∀ field ∈ C.buildFieldHints D, ∀ v w, C.Suits field.2 v → v.Canonical →
      Value.OnWire v w → (py.convertField (py.asRecord C n) field.2 v).Agree
        (py.convertField (py.asRecord C n) field.2 w) := fun field hf v w hs hc hw =>
    convert_agree hpy (buildFieldHints_flat hf) (hready.elements field hf) (hready.keys field hf)
      (hrec field hf) hs hc hw
  cases hs with
  | bare hr =>
    rw [hw.eq_of_recordFree hc hr]
    exact .refl _
  | @record _ fs hkeys hsuits =>
    obtain ⟨hasc, hcs⟩ := Value.forall_parts_record.mp hc
    obtain ⟨y, hy⟩ := exists_record hasc hkeys
    have hfs : fs = (C.sortedNames D).map fun k => (k, y k) := Value.record.inj hy
    rw [hy] at hw ⊢
    obtain ⟨y', rfl, hwire⟩ := Classes.onWire_record.mp hw
    refine kwargs_record_agree hready hwire fun field hf => ?_
    have hname : field.1 ∈ C.sortedNames D :=
      sortedNames_perm.mem_iff.mpr (List.mem_map_of_mem hf)
    have hmem : (field.1, y field.1) ∈ fs := by
      rw [hfs]
      exact List.mem_map_of_mem hname
    exact hfield field hf _ _ (hsuits field hf _ hmem) (hcs _ hmem) (hwire field.1 hname)
  | @positional _ xs hsuits _ =>
    obtain ⟨ws, rfl, hws⟩ := Value.onWire_vector.mp hw
    obtain ⟨-, hcs⟩ := Value.forall_parts_vector.mp hc
    refine kwargs_vector_agree hws.length_eq fun p hp => ?_
    have hpair : (p.1.1, p.1.2) ∈ xs.zip ws := (List.of_mem_zip hp).1
    have hpos : (p.1.1, p.2) ∈ xs.zip (C.buildFieldHints D) := by
      rw [← List.map_fst_zip hws.length_eq.le, List.zip_map_left]
      exact List.mem_map_of_mem hp
    exact hfield p.2 (List.of_mem_zip hp).2 _ _ (hsuits _ hpos) (hcs _ (List.of_mem_zip hpair).1)
      (List.forall₂_zip hws hpair)

/-- Where all the classes are ready, a value and its wire form are made the same instance. -/
theorem asRecord_agree (hpy : py.Lawful C) (n : ℕ) {T : Ty}
    (hready : ∀ D, C.Reaches T D → C.WireReady D) {v w : Value}
    (hs : C.Suits (.dataclass T) v) (hc : v.Canonical) (hw : Value.OnWire v w) :
    (py.asRecord C n T v).Agree (py.asRecord C n T w) := by
  induction n generalizing T v w with
  | zero => exact .refl _
  | succ n ih =>
    refine (kwargs_agree hpy (hready T .refl) (fun field hf E hE v w hs hc hw => ?_) hs hc hw).bind
      fun _ => .refl _
    exact ih (fun D hD => hready D (Reaches.trans (.step .refl hf hE) hD)) hs hc hw

end Interpreter

end ZWS.Python
