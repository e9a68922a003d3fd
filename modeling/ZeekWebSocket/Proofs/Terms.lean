import ZeekWebSocket.Proofs.AsRecord
import Mathlib.Logic.Function.Basic

/-! An interpreter that only writes down what it is asked to do. Its objects are terms, and two of
them are one object only if they were made alike or Python would not tell them apart. -/

namespace ZWS.Python

open Base

noncomputable section
open Classical

/-- One list for all lists of the same members. -/
def representative {α : Type} (xs : List α) : List α := Function.invFun (fun ys a => a ∈ ys) (· ∈ xs)

@[simp] theorem mem_representative {α : Type} {xs : List α} {a : α} :
    a ∈ representative xs ↔ a ∈ xs := by
  have h : (fun a => a ∈ representative xs) = (· ∈ xs) :=
    Function.invFun_eq (f := fun (ys : List α) a => a ∈ ys) ⟨xs, rfl⟩
  exact iff_of_eq (congrFun h a)

theorem representative_congr {α : Type} {xs ys : List α} (h : ∀ a, a ∈ xs ↔ a ∈ ys) :
    representative xs = representative ys := by
  have hmem : (· ∈ xs) = (· ∈ ys) := funext fun a => propext (h a)
  rw [representative, representative, hmem]

/-- The attributes of equal values. -/
def Native.Alike (n n' : Native) : Prop := ∃ v w : Value, v.Equal w ∧ v.value = n ∧ w.value = n'

/-- Tells lists of different lengths, and lists from texts. -/
def Native.size : Native → ℕ
  | .list xs => xs.length + 2
  | .str _ => 1
  | _ => 0

theorem size_of_not_vector {v : Value} (h : ∀ xs, v ≠ .vector xs) :
    v.value.size = if v.discriminant = 13 ∨ v.discriminant = 14 then 1 else 0 := by
  cases v with
  | vector xs => exact absurd rfl (h xs)
  | _ => rfl

theorem Native.Alike.size_eq {n n' : Native} (h : n.Alike n') : n.size = n'.size := by
  obtain ⟨v, w, h, rfl, rfl⟩ := h
  by_cases hv : ∃ xs, v = .vector xs
  · obtain ⟨xs, rfl⟩ := hv
    obtain ⟨ys, rfl, hys⟩ := Value.equal_vector.mp h
    simp [Value.value, size, hys.length_eq]
  · have hw : ¬ ∃ ys, w = .vector ys := mt (h.of_variant fun _ _ => Value.equal_vector) hv
    rw [size_of_not_vector (not_exists.mp hv), size_of_not_vector (not_exists.mp hw), h.discriminant]

theorem Native.alike_ne {n n' : Native} (h : n.size ≠ n'.size) :
    Quot.mk Native.Alike n ≠ Quot.mk Native.Alike n' := by
  intro heq
  have hsize := congrArg (Quot.lift Native.size fun _ _ => Native.Alike.size_eq) heq
  exact h hsize

/-- Objects as they are made. -/
inductive Term (Ty : Type) where
  | value (code : List ℤ)
  | native (n : Quot Native.Alike)
  | none
  | list (xs : List (Term Ty))
  | set (xs : List (Term Ty))
  | dict (es : List (Term Ty × Term Ty))
  | item (ty : Ty) (o : Term Ty)
  | made (ty : Ty) (o : Term Ty)
  | object (ty : Ty) (kwargs : List (String × Term Ty))

namespace Term

variable {Ty : Type} (C : Classes Ty)

def hashing : Term Ty → Option Hashing
  | .object ty _ => some (C.hashing ty)
  | _ => Option.none

/-- Elements that are compared in an arbitrary way are kept as often as they are listed. -/
def frozen (os : List (Term Ty)) : Option (Term Ty) :=
  if ∃ o ∈ os, o.hashing C = some .unhashable then Option.none
  else if ∃ o ∈ os, o.hashing C = some .arbitrary then some (.set os)
  else some (.set (representative os))

def assign : Term Ty → Term Ty → Term Ty → Option (Term Ty)
  | .dict es, k, v =>
    if k.hashing C = some .unhashable then Option.none
    else if k.hashing C = some .arbitrary then some (.dict (es ++ [(k, v)]))
    else some (.dict (representative (es.filter (fun e => e.1 ≠ k) ++ [(k, v)])))
  | _, _, _ => Option.none

def symbolic : Interpreter Ty (Term Ty) where
  ofValue v := .value v.code
  ofNative n := some (.native (Quot.mk _ n))
  noneObject := .none
  list := .list
  frozenSet := frozen C
  emptyDict := .dict []
  setItem := assign C
  getItem ty o := some (.item ty o)
  call1 ty o := some (.made ty o)
  call ty kwargs := some (.object ty kwargs)
  display _ := ""
  debug _ := ""

variable {C}

theorem value_symbolic (v : Value) : (symbolic C).value v = .ok (.native (Quot.mk _ v.value)) := rfl

theorem madeBy_symbolic {h : Hashing} {o : Term Ty} :
    (symbolic C).MadeBy C h o ↔ o.hashing C = some h := by
  refine ⟨?_, ?_⟩
  · rintro ⟨ty, kwargs, rfl, ho⟩
    obtain rfl := Option.some.inj ho
    rfl
  · intro ho
    cases o with
    | object ty kwargs => exact ⟨ty, kwargs, Option.some.inj ho, rfl⟩
    | _ => simp [hashing] at ho

theorem frozen_byValue {os : List (Term Ty)} (h : ∀ o ∈ os, o.hashing C ≠ some .unhashable ∧
    o.hashing C ≠ some .arbitrary) : frozen C os = some (.set (representative os)) := by
  have hhash : ¬ ∃ o ∈ os, o.hashing C = some .unhashable := fun hex => by
    obtain ⟨o, ho, he⟩ := hex
    exact (h o ho).1 he
  have harb : ¬ ∃ o ∈ os, o.hashing C = some .arbitrary := fun hex => by
    obtain ⟨o, ho, he⟩ := hex
    exact (h o ho).2 he
  rw [frozen, if_neg hhash, if_neg harb]

theorem assign_byValue {es : List (Term Ty × Term Ty)} {k v : Term Ty}
    (h : k.hashing C ≠ some .unhashable ∧ k.hashing C ≠ some .arbitrary) : assign C (.dict es) k v =
      some (.dict (representative (es.filter (fun e => e.1 ≠ k) ++ [(k, v)]))) := by
  rw [assign, if_neg h.1, if_neg h.2]

theorem byValue_ne {k : Term Ty} (h : k.hashing C = some .byValue) :
    k.hashing C ≠ some .unhashable ∧ k.hashing C ≠ some .arbitrary := by
  simp [h]

theorem assign_again {k : Term Ty} (h : k.hashing C = some .byValue) (d v d' v' : Term Ty)
    (hd : assign C d k v = some d') : assign C d' k v' = assign C d k v' := by
  cases d with
  | dict es =>
    rw [assign_byValue (byValue_ne h)] at hd
    obtain rfl := Option.some.inj hd
    rw [assign_byValue (byValue_ne h), assign_byValue (byValue_ne h)]
    congr 2
    apply representative_congr
    rintro ⟨a, b⟩
    by_cases ha : a = k <;> simp [ha]
  | _ => simp [assign] at hd

theorem assign_swap {k k' : Term Ty} (h : k.hashing C = some .byValue)
    (h' : k'.hashing C = some .byValue) (hne : k ≠ k') (d v v' : Term Ty) :
    (do let d ← assign C d k v; assign C d k' v') =
      (do let d ← assign C d k' v'; assign C d k v) := by
  cases d with
  | dict es =>
    simp only [assign_byValue (byValue_ne h), assign_byValue (byValue_ne h'), Option.bind_eq_bind,
      Option.bind_some]
    congr 2
    apply representative_congr
    rintro ⟨a, b⟩
    by_cases ha : a = k
    · subst ha
      simp [hne]
    · by_cases ha' : a = k'
      · subst ha'
        simp [hne.symm]
      · simp [ha, ha']
  | _ => rfl

end Term

end

open Interpreter Term

namespace Classes

variable {Ty : Type} {C : Classes Ty} {D : Ty}

/-! Equal values are made into the same term. -/

section
variable {asRecord : Ty → Value → Outcome PyException (Option (Term Ty))}

theorem value_equal {v w : Value} (h : v.Equal w) : (symbolic C).value v = (symbolic C).value w := by
  rw [value_symbolic, value_symbolic, Quot.sound ⟨v, w, h, rfl, rfl⟩]

theorem convert_list_other {elem : FieldHint Ty} {v : Value} (h : ∀ xs, v ≠ .vector xs) :
    (symbolic C).convertField asRecord (.list elem) v = (symbolic C).value v := by
  cases v <;> first | rfl | exact absurd rfl (h _)

theorem convert_set_other {elem : FieldHint Ty} {v : Value} (h : ∀ xs, v ≠ .set xs) :
    (symbolic C).convertField asRecord (.set elem) v = (symbolic C).value v := by
  cases v <;> first | rfl | exact absurd rfl (h _)

theorem convert_table_other {key val : FieldHint Ty} {v : Value} (h : ∀ es, v ≠ .table es) :
    (symbolic C).convertField asRecord (.table key val) v = (symbolic C).value v := by
  cases v <;> first | rfl | exact absurd rfl (h _)

theorem convert_equal (hrec : ∀ E v w, v.Equal w → (asRecord E v).Agree (asRecord E w)) (h : FieldHint Ty)
    {v w : Value} (hvw : v.Equal w) : ((symbolic C).convertField asRecord h v).Agree
      ((symbolic C).convertField asRecord h w) := by
  induction h generalizing v w with
  | valueType =>
    have hcode : ((symbolic C).ofValue v : Term Ty) = (symbolic C).ofValue w :=
      congrArg Term.value (Value.equal_iff.mp hvw)
    rw [convertField, convertField, hcode]
    exact .refl _
  | dataclass E =>
    refine (hrec E v w hvw).bind fun made o => ?_
    rw [Outcome.ofOption_eq_ok, Outcome.ofOption_eq_ok]
  | optional inner ih =>
    by_cases hv : v = .none
    · subst hv
      obtain rfl : w = .none := by
        cases w <;> first | rfl | exact absurd hvw.discriminant (by simp [Value.discriminant])
      exact .refl _
    · have hw : w ≠ .none := by
        rintro rfl
        cases v <;> first | exact hv rfl | exact absurd hvw.discriminant (by simp [Value.discriminant])
      rw [convert_optional hv, convert_optional hw]
      exact ih hvw
  | list elem ih =>
    by_cases hv : ∃ xs, v = .vector xs
    · obtain ⟨xs, rfl⟩ := hv
      obtain ⟨ys, rfl, hys⟩ := Value.equal_vector.mp hvw
      exact (Outcome.Agree.mapM (hys.imp fun _ _ h => ih h)).bind fun _ => .refl _
    · have hw : ¬ ∃ ys, w = .vector ys := mt (hvw.of_variant fun _ _ => Value.equal_vector) hv
      rw [convert_list_other (not_exists.mp hv), convert_list_other (not_exists.mp hw), value_equal hvw]
      exact .refl _
  | set elem ih =>
    by_cases hv : ∃ xs, v = .set xs
    · obtain ⟨xs, rfl⟩ := hv
      obtain ⟨ys, rfl, hys⟩ := Value.equal_set.mp hvw
      exact (Outcome.Agree.mapM (hys.imp fun _ _ h => ih h)).bind fun _ => .refl _
    · have hw : ¬ ∃ ys, w = .set ys := mt (hvw.of_variant fun _ _ => Value.equal_set) hv
      rw [convert_set_other (not_exists.mp hv), convert_set_other (not_exists.mp hw), value_equal hvw]
      exact .refl _
  | table key val ihk ihv =>
    by_cases hv : ∃ es, v = .table es
    · obtain ⟨es, rfl⟩ := hv
      obtain ⟨fs, rfl, hfs⟩ := Value.equal_table.mp hvw
      refine Outcome.Agree.foldlM (hfs.imp fun e f hef dict => ?_) _
      exact (ihk hef.1).bind fun _ => (ihv hef.2).bind fun _ => .refl _
    · have hw : ¬ ∃ fs, w = .table fs := mt (hvw.of_variant fun _ _ => Value.equal_table) hv
      rw [convert_table_other (not_exists.mp hv), convert_table_other (not_exists.mp hw), value_equal hvw]
      exact .refl _
  | enum ty =>
    rw [convertField, convertField, value_equal hvw]
    exact .refl _
  | coerce ty =>
    rw [convertField, convertField, value_equal hvw]
    exact .refl _
  | plain =>
    rw [convertField, convertField, value_equal hvw]
    exact .refl _

end

/-- The values of a field on both sides. -/
def SameField (p q : String × Value × FieldHint Ty) : Prop :=
  p.1 = q.1 ∧ p.2.1.Equal q.2.1 ∧ p.2.2 = q.2.2

theorem lookup_equal {fs gs : List (String × Value)}
    (h : List.Forall₂ (fun f g => f.1 = g.1 ∧ f.2.Equal g.2) fs gs) (k : String) :
    Option.Rel Value.Equal (fs.lookup k) (gs.lookup k) := by
  induction h with
  | nil => exact .none
  | @cons f g fs gs hfg _ ih =>
    obtain ⟨k', v⟩ := f
    obtain ⟨l', w⟩ := g
    obtain ⟨rfl, hvw⟩ := hfg
    rw [List.lookup_cons, List.lookup_cons]
    cases k == k' with
    | true => exact .some hvw
    | false => exact ih

theorem typedValues_equal {v w : Value} (h : v.Equal w) :
    Option.Rel (List.Forall₂ SameField) (typedValues C D v) (typedValues C D w) := by
  by_cases hv : v.Recordish
  · rcases hv with ⟨xs, rfl⟩ | ⟨fs, rfl⟩
    · obtain ⟨ys, rfl, hys⟩ := Value.equal_vector.mp h
      refine .some (List.forall₂_map_left_iff.mpr (List.forall₂_map_right_iff.mpr ?_))
      clear h
      generalize C.buildFieldHints D = hints
      induction hys generalizing hints with
      | nil => exact .nil
      | cons hxy _ ih =>
        cases hints with
        | nil => exact .nil
        | cons f hints => exact .cons ⟨rfl, hxy, rfl⟩ (ih hints)
    · obtain ⟨gs, rfl, hgs⟩ := Value.equal_record.mp h
      refine .some ?_
      induction C.buildFieldHints D with
      | nil => exact .nil
      | cons f hints ih =>
        rw [List.filterMap_cons, List.filterMap_cons]
        have hf := lookup_equal hgs f.1
        generalize fs.lookup f.1 = x at hf ⊢
        generalize gs.lookup f.1 = y at hf ⊢
        cases hf with
        | some hvw => exact .cons ⟨rfl, hvw, rfl⟩ ih
        | none => exact ih
  · have hw : ¬ w.Recordish := mt (Or.imp (h.of_variant fun _ _ => Value.equal_vector)
      (h.of_variant fun _ _ => Value.equal_record)) hv
    rw [typedValues_eq_none hv, typedValues_eq_none hw]
    exact .none

theorem asRecord_equal (n : ℕ) (E : Ty) {v w : Value} (h : v.Equal w) :
    ((symbolic C).asRecord C n E v).Agree ((symbolic C).asRecord C n E w) := by
  induction n generalizing E v w with
  | zero => exact .refl _
  | succ n ih =>
    refine Outcome.Agree.bind ?_ fun _ => .refl _
    have hargs := typedValues_equal (C := C) (D := E) h
    simp only [kwargs]
    generalize typedValues C E v = x at hargs ⊢
    generalize typedValues C E w = y at hargs ⊢
    cases hargs with
    | none => exact .refl _
    | some hargs =>
      split
      · exact .refl _
      · refine (Outcome.Agree.mapM (hargs.imp fun p q hpq => ?_)).bind fun _ => .refl _
        obtain ⟨k, v, hint⟩ := p
        obtain ⟨l, w, hint'⟩ := q
        obtain ⟨rfl, hvw, rfl⟩ := hpq
        exact (convert_equal (fun E v w => ih E) hint hvw).bind fun _ => .refl _

theorem symbolic_lawful (C : Classes Ty) : (symbolic C).Lawful C where
  equal ty _ depth v w h := asRecord_equal depth ty h
  set os os' hmade hsame := by
    have hos : ∀ o ∈ os, o.hashing C ≠ some .unhashable ∧ o.hashing C ≠ some .arbitrary :=
      fun o ho => byValue_ne (madeBy_symbolic.mp (hmade o ho))
    change frozen C os = frozen C os'
    rw [frozen_byValue hos, frozen_byValue fun o ho => hos o ((hsame o).mpr ho),
      representative_congr hsame]
  unhashableElement os o ho hmade := if_pos ⟨o, ho, madeBy_symbolic.mp hmade⟩
  again k hk := assign_again (madeBy_symbolic.mp hk)
  swap k k' hk hk' hne := assign_swap (madeBy_symbolic.mp hk) (madeBy_symbolic.mp hk') hne
  unhashableKey k hk dict v := by
    change assign C dict k v = Option.none
    cases dict with
    | dict es => exact if_pos (madeBy_symbolic.mp hk)
    | _ => rfl

end Classes

end ZWS.Python
