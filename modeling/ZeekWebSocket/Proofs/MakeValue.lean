import ZeekWebSocket.Sanity.Equal
import ZeekWebSocket.Spec.PyObject

/-! `make_value` never asks whether an object is a member of an enum, only whether the question
can be answered. It tells members from records, in an object and in all that it is made from,
exactly where their `name` does. -/

namespace ZWS.Python

open Base

namespace PyObjects

variable {Obj : Type} {py : PyObjects Obj} {f g : Obj → Outcome PyException Value} {obj : Obj}

/-- No conversion before the one to an enum takes the object. -/
def Unmatched (py : PyObjects Obj) (obj : Obj) : Prop :=
  ∃ depth, ∀ x ∈ py.earlier (py.extract depth) obj, x.Fails

/-- The attribute `name`, if it is a text. -/
def nameOf (py : PyObjects Obj) (obj : Obj) : Option String := do
  let name ← py.getName obj
  py.asString name

/-- What an object should become: members of enums their names, and only they. -/
def ought (py : PyObjects Obj) : ℕ → Obj → Outcome PyException Value
  | 0, _ => .panic
  | depth + 1, obj => .firstOk (py.unsupported obj)
      (py.earlier (py.ought depth) obj ++
        [if py.isEnum obj = some true then py.extractEnum obj else py.extractRecord (py.ought depth) obj])

def Ought (py : PyObjects Obj) (obj : Obj) (v : Value) : Prop := ∃ depth, py.ought depth obj = .ok v

def HasDict (py : PyObjects Obj) (obj : Obj) (items : List (Obj × Obj)) : Prop :=
  ∃ d, py.getDict obj = some (some d) ∧ py.asDict d = some items

/-- The keys are texts and the values all convert, each to what it should become. -/
def Converts (py : PyObjects Obj) (items : List (Obj × Obj)) (fs : List (String × Value)) : Prop :=
  List.Forall₂ (fun item f => py.asString item.1 = some f.1 ∧ py.Ought item.2 f.2) items fs

def BecomesEnum (py : PyObjects Obj) (obj : Obj) : Prop :=
  ∃ s, py.nameOf obj = some s ∧ py.MakesValue obj (.enum s)

/-- Never an enum, and a record with the keys of the `__dict__` and their converted values
wherever they convert. -/
def BecomesRecord (py : PyObjects Obj) (obj : Obj) : Prop :=
  (∀ s, ¬ py.MakesValue obj (.enum s)) ∧
    ∀ items fs, py.HasDict obj items → py.Converts items fs →
      ∃ gs, py.MakesValue obj (.record gs) ∧ Ascending (byKey compareStr) gs ∧ gs ⊆ fs ∧
        ∀ f ∈ fs, ∃ v, (f.1, v) ∈ gs

/-- Enum members become enums, and all other objects do not but may become records. -/
def ToldApart (py : PyObjects Obj) (obj : Obj) : Prop :=
  if py.isEnum obj = some true then py.BecomesEnum obj else py.BecomesRecord obj

/-- A member of an enum has a text for its `name`, and another object does not. -/
def ToldByName (py : PyObjects Obj) (obj : Obj) : Prop :=
  match py.isEnum obj with
  | some true => (py.nameOf obj).isSome
  | some false => py.nameOf obj = none
  | none => True

/-- The conversions that look at no other object but the items of a pair. -/
def plainly (py : PyObjects Obj) (obj : Obj) : List (Outcome PyException Value) :=
  [attempt (py.asValue obj) id,
   attempt (py.asBool obj) .boolean,
   attempt (py.asFloat obj) .real,
   attempt (py.asDuration obj) .timespan,
   attempt (py.asDateTime obj) .timestamp,
   attempt (py.asAddress obj) .address,
   py.extractSubnet obj,
   py.extractPort obj]

/-- To convert `obj` is to convert the other object first. -/
inductive Asks (py : PyObjects Obj) (obj : Obj) : Obj → Prop
  | item {items p} (h : ∀ x ∈ py.plainly obj, x.Fails) (hs : py.asSequence obj = some items)
    (hp : p ∈ items) : Asks py obj p
  | element {items p} (h : ∀ x ∈ py.plainly obj, x.Fails) (hs : py.asSet obj = some items)
    (hp : p ∈ items) : Asks py obj p
  | key {items item} (h : ∀ x ∈ py.plainly obj, x.Fails) (hs : py.asDict obj = some items)
    (hp : item ∈ items) : Asks py obj item.1
  | entry {items item} (h : ∀ x ∈ py.plainly obj, x.Fails) (hs : py.asDict obj = some items)
    (hp : item ∈ items) : Asks py obj item.2
  | field {items item} (h : py.Unmatched obj) (he : py.isEnum obj ≠ some true)
    (hs : py.HasDict obj items) (hp : item ∈ items) : Asks py obj item.2

/-- The object and all that is converted on the way. -/
def Within (py : PyObjects Obj) : Obj → Obj → Prop := Relation.ReflTransGen py.Asks

/-! More of a stack changes no result. -/

theorem earlier_below (h : ∀ o, (f o).Below (g o)) (obj : Obj) :
    List.Forall₂ Outcome.Below (py.earlier f obj) (py.earlier g obj) := by
  have hseq : (py.extractVector f obj).Below (py.extractVector g obj) :=
    (Outcome.Below.refl _).bind fun items => (Outcome.Below.mapM h items).bind fun _ => .refl _
  have hset : (py.extractSet f obj).Below (py.extractSet g obj) :=
    (Outcome.Below.refl _).bind fun items => (Outcome.Below.mapM h items).bind fun _ => .refl _
  have hentry : ∀ item, (extractEntry f item).Below (extractEntry g item) := fun item =>
    (h item.1).bind fun _ => (h item.2).bind fun _ => .refl _
  have htable : (py.extractTable f obj).Below (py.extractTable g obj) :=
    (Outcome.Below.refl _).bind fun items => (Outcome.Below.mapM hentry items).bind fun _ => .refl _
  unfold earlier
  simp only [List.forall₂_cons, Outcome.Below.refl, hseq, hset, htable, List.Forall₂.nil, and_self]

theorem extractRecord_below (h : ∀ o, (f o).Below (g o)) (obj : Obj) :
    (py.extractRecord f obj).Below (py.extractRecord g obj) := by
  have hfield : ∀ item, (py.extractField f item).Below (py.extractField g item) := fun item =>
    (Outcome.Below.refl _).bind fun _ => (h item.2).bind fun _ => .refl _
  refine (Outcome.Below.refl _).bind fun _ => (Outcome.Below.refl _).bind fun _ => ?_
  exact (Outcome.Below.refl _).bind fun items =>
    (Outcome.Below.mapM hfield items).bind fun _ => .refl _

theorem infer_below (h : ∀ o, (f o).Below (g o)) (obj : Obj) :
    (py.infer f obj).Below (py.infer g obj) :=
  .firstOk (List.rel_append (earlier_below h obj)
    (.cons (.refl _) (.cons (extractRecord_below h obj) .nil)))

theorem extract_succ (depth : ℕ) (obj : Obj) :
    (py.extract depth obj).Below (py.extract (depth + 1) obj) := by
  induction depth generalizing obj with
  | zero => exact .panic _
  | succ depth ih => exact infer_below ih obj

theorem extract_mono {m n : ℕ} (h : m ≤ n) (obj : Obj) :
    (py.extract m obj).Below (py.extract n obj) := by
  induction n, h using Nat.le_induction with
  | base => exact .refl _
  | succ n _ ih => exact ih.trans (extract_succ n obj)

theorem extract_of_le {m n : ℕ} (h : m ≤ n) {v : Value} (hv : py.extract m obj = .ok v) :
    py.extract n obj = .ok v :=
  Outcome.Below.ok (hv ▸ extract_mono h obj)

/-- Past the earlier conversions, from some depth on. -/
theorem Unmatched.extract_eq (h : py.Unmatched obj) :
    ∃ m, ∀ n, m ≤ n → py.extract (n + 1) obj = .firstOk (py.unsupported obj)
      [py.extractEnum obj, py.extractRecord (py.extract n) obj] := by
  obtain ⟨m, hm⟩ := h
  exact ⟨m, fun n hn => Outcome.firstOk_skip
    (Outcome.Below.all_fail (earlier_below (extract_mono hn) obj) hm)⟩

theorem extractEnum_of_name {b : Bool} {s : String} (he : py.isEnum obj = some b)
    (hs : py.nameOf obj = some s) : py.extractEnum obj = .ok (.enum s) := by
  obtain ⟨name, hname, hs⟩ := Option.bind_eq_some_iff.mp hs
  simp [extractEnum, he, hname, hs, Outcome.ofOption]

theorem extractEnum_fails (h : py.isEnum obj = none ∨ py.nameOf obj = none) :
    (py.extractEnum obj).Fails := by
  unfold extractEnum
  rcases h with he | hs
  · simp [he, Outcome.ofOption]
  · cases he : py.isEnum obj with
    | none => simp [Outcome.ofOption]
    | some b =>
      cases hname : py.getName obj with
      | none => simp [Outcome.ofOption]
      | some name =>
        have hs : py.asString name = none := by simpa [nameOf, hname] using hs
        simp [hs, Outcome.ofOption]

theorem not_enum_of_record {s : String} : py.extractRecord f obj ≠ .ok (.enum s) := by
  intro h
  simp [extractRecord, Outcome.bind_eq_ok] at h

/-- An object whose `name` does not count never becomes an enum. -/
theorem Unmatched.not_enum (h : py.Unmatched obj) (he : py.isEnum obj = none ∨ py.nameOf obj = none)
    (s : String) : ¬ py.MakesValue obj (.enum s) := by
  intro hmv
  obtain ⟨m, hm⟩ := h.extract_eq
  obtain ⟨n, hn⟩ := hmv
  obtain ⟨e, hfail⟩ := extractEnum_fails he
  have hle : n ≤ max m n + 1 := by omega
  have hrun := extract_of_le hle hn
  rw [hm _ (le_max_left m n), hfail, Outcome.firstOk_cons_err] at hrun
  rcases Outcome.firstOk_eq_ok hrun with hlast | hmem
  · simp [unsupported] at hlast
  · exact not_enum_of_record (List.mem_singleton.mp hmem).symm

/-- On a stack with room for every one of them, the entries convert together. -/
theorem mapM_extractField {items : List (Obj × Obj)} {fs : List (String × Value)}
    (h : List.Forall₂ (fun item f => py.asString item.1 = some f.1 ∧ py.MakesValue item.2 f.2) items fs) :
    ∃ m, ∀ n, m ≤ n → items.mapM (py.extractField (py.extract n)) = .ok fs := by
  induction h with
  | nil => exact ⟨0, fun _ _ => rfl⟩
  | @cons item f items fs hitem _ ih =>
    obtain ⟨hkey, m, hm⟩ := hitem
    obtain ⟨m', hm'⟩ := ih
    refine ⟨max m m', fun n hn => ?_⟩
    have hv : py.extract n item.2 = .ok f.2 := extract_of_le (by omega) hm
    have hfield : py.extractField (py.extract n) item = .ok f := by
      simp [extractField, hkey, hv, Outcome.ofOption]
    simp [List.mapM_cons, hfield, hm' n (by omega)]

theorem collect_fields (fs : List (String × Value)) :
    Ascending (byKey compareStr) (collectBy (byKey compareStr) keepNew fs) ∧
      collectBy (byKey compareStr) keepNew fs ⊆ fs ∧
      ∀ f ∈ fs, ∃ v, (f.1, v) ∈ collectBy (byKey compareStr) keepNew fs := by
  refine ⟨collectBy_ascending keepNew_picks fs, fun g hg => mem_collectBy keepNew_picks hg, ?_⟩
  intro f hf
  obtain ⟨g, hg, hfg⟩ : ∃ g ∈ collectBy (byKey compareStr) keepNew fs, byKey compareStr f g = .eq :=
    exists_mem_collectBy keepNew_picks hf
  have hkey : f.1 = g.1 := compareStr_eq_eq.mp hfg
  exact ⟨g.2, hkey ▸ hg⟩

theorem Unmatched.becomesEnum {s : String} (h : py.Unmatched obj) {b : Bool}
    (he : py.isEnum obj = some b) (hs : py.nameOf obj = some s) : py.MakesValue obj (.enum s) := by
  obtain ⟨m, hm⟩ := h.extract_eq
  refine ⟨m + 1, ?_⟩
  rw [hm m le_rfl, extractEnum_of_name he hs, Outcome.firstOk_cons_ok]

theorem Unmatched.becomesRecord (h : py.Unmatched obj)
    (he : py.isEnum obj = none ∨ py.nameOf obj = none)
    (hought : ∀ items, py.HasDict obj items → ∀ item ∈ items, ∀ v, py.Ought item.2 v →
      py.MakesValue item.2 v) : py.BecomesRecord obj := by
  refine ⟨h.not_enum he, fun items fs hdict hconv => ?_⟩
  have hmade : List.Forall₂ (fun item f => py.asString item.1 = some f.1 ∧ py.MakesValue item.2 f.2)
      items fs := forall₂_of_mem hconv fun item hitem f hf => ⟨hf.1, hought items hdict item hitem _ hf.2⟩
  obtain ⟨d, hd, hitems⟩ := hdict
  obtain ⟨m, hm⟩ := h.extract_eq
  obtain ⟨m', hm'⟩ := mapM_extractField hmade
  obtain ⟨e, hfail⟩ := extractEnum_fails he
  have hrec : py.extractRecord (py.extract (max m m')) obj =
      .ok (.record (collectBy (byKey compareStr) keepNew fs)) := by
    simp [extractRecord, hd, hitems, hm' _ (le_max_right m m'), Outcome.ofOption]
  refine ⟨collectBy (byKey compareStr) keepNew fs, ⟨max m m' + 1, ?_⟩, collect_fields fs⟩
  rw [hm _ (le_max_left m m'), hfail, Outcome.firstOk_cons_err, hrec, Outcome.firstOk_cons_ok]

/-! An object that asks for nothing but what converts as it should converts as it should. -/

theorem earlier_eq (f : Obj → Outcome PyException Value) (obj : Obj) :
    py.earlier f obj = py.plainly obj ++
      [py.extractVector f obj, py.extractSet f obj, py.extractTable f obj,
        attempt (py.asString obj) .string, if py.isNone obj then .ok .none else .err .raised] := rfl

theorem earlier_congr (hplain : ∀ x ∈ py.plainly obj, x.Fails) (h : ∀ p, py.Asks obj p → f p = g p) :
    py.earlier f obj = py.earlier g obj := by
  have hvector : py.extractVector f obj = py.extractVector g obj := by
    unfold extractVector
    cases hs : py.asSequence obj with
    | none => rfl
    | some items =>
      have hitems : items.mapM f = items.mapM g :=
        Outcome.mapM_congr fun p hp => h p (.item hplain hs hp)
      simp [Outcome.ofOption, hitems]
  have hset : py.extractSet f obj = py.extractSet g obj := by
    unfold extractSet
    cases hs : py.asSet obj with
    | none => rfl
    | some items =>
      have hitems : items.mapM f = items.mapM g :=
        Outcome.mapM_congr fun p hp => h p (.element hplain hs hp)
      simp [Outcome.ofOption, hitems]
  have htable : py.extractTable f obj = py.extractTable g obj := by
    unfold extractTable
    cases hs : py.asDict obj with
    | none => rfl
    | some items =>
      have hitems : items.mapM (extractEntry f) = items.mapM (extractEntry g) := by
        apply Outcome.mapM_congr
        intro item hp
        rw [extractEntry, extractEntry, h _ (.key hplain hs hp), h _ (.entry hplain hs hp)]
      simp [Outcome.ofOption, hitems]
  rw [earlier_eq, earlier_eq, hvector, hset, htable]

theorem extractRecord_congr (hu : py.Unmatched obj) (he : py.isEnum obj ≠ some true)
    (h : ∀ p, py.Asks obj p → f p = g p) : py.extractRecord f obj = py.extractRecord g obj := by
  unfold extractRecord
  cases hd : py.getDict obj with
  | none => rfl
  | some x =>
    cases x with
    | none => rfl
    | some d =>
      cases hs : py.asDict d with
      | none => simp [Outcome.ofOption, hs]
      | some items =>
        have hitems : items.mapM (py.extractField f) = items.mapM (py.extractField g) := by
          apply Outcome.mapM_congr
          intro item hp
          rw [extractField, extractField, h _ (.field hu he ⟨d, hd, hs⟩ hp)]
        simp [Outcome.ofOption, hs, hitems]

/-- The last two conversions of an object whose `name` says what it is. -/
theorem ToldByName.firstOk_eq (h : py.ToldByName obj) (hu : py.Unmatched obj)
    (hf : ∀ p, py.Asks obj p → f p = g p) :
    Outcome.firstOk (py.unsupported obj)
        [if py.isEnum obj = some true then py.extractEnum obj else py.extractRecord f obj] =
      Outcome.firstOk (py.unsupported obj) [py.extractEnum obj, py.extractRecord g obj] := by
  unfold ToldByName at h
  have hrecord : py.isEnum obj ≠ some true → (py.extractEnum obj).Fails →
      Outcome.firstOk (py.unsupported obj)
          [if py.isEnum obj = some true then py.extractEnum obj else py.extractRecord f obj] =
        Outcome.firstOk (py.unsupported obj) [py.extractEnum obj, py.extractRecord g obj] := by
    intro he hfail
    obtain ⟨e, hfail⟩ := hfail
    rw [if_neg he, hfail, Outcome.firstOk_cons_err, extractRecord_congr hu he hf]
  cases he : py.isEnum obj with
  | none =>
    rw [← he]
    exact hrecord (by simp [he]) (extractEnum_fails (.inl he))
  | some b =>
    cases b with
    | true =>
      simp only [he] at h
      obtain ⟨s, hs⟩ := Option.isSome_iff_exists.mp h
      rw [if_pos rfl, extractEnum_of_name he hs, Outcome.firstOk_cons_ok, Outcome.firstOk_cons_ok]
    | false =>
      simp only [he] at h
      rw [← he]
      exact hrecord (by simp [he]) (extractEnum_fails (.inr h))

/-- On every stack, an object converts as it should if all that is within it is told by name. -/
theorem ought_eq (h : ∀ p, py.Within obj p → py.Unmatched p → py.ToldByName p) (depth : ℕ) :
    py.ought depth obj = py.extract depth obj := by
  induction depth generalizing obj with
  | zero => rfl
  | succ depth ih =>
    have hasks : ∀ p, py.Asks obj p → py.ought depth p = py.extract depth p := fun p hp =>
      ih fun q hq => h q (.head hp hq)
    rw [ought, extract, infer]
    by_cases hplain : ∀ x ∈ py.plainly obj, x.Fails
    · rw [earlier_congr hplain hasks]
      by_cases hall : ∀ x ∈ py.earlier (py.extract depth) obj, x.Fails
      · have hu : py.Unmatched obj := ⟨depth, hall⟩
        rw [Outcome.firstOk_skip hall, Outcome.firstOk_skip hall]
        exact (h obj .refl hu).firstOk_eq hu hasks
      · rw [Outcome.firstOk_taken hall, Outcome.firstOk_taken hall]
    · rw [earlier_eq, earlier_eq, List.append_assoc, List.append_assoc,
        Outcome.firstOk_taken hplain, Outcome.firstOk_taken hplain]

theorem toldByName_of_toldApart (h : py.Unmatched obj) (ht : py.ToldApart obj) : py.ToldByName obj := by
  unfold ToldApart at ht
  unfold ToldByName
  cases he : py.isEnum obj with
  | none => trivial
  | some b =>
    cases b with
    | true =>
      rw [if_pos he] at ht
      obtain ⟨s, hs, -⟩ := ht
      exact Option.isSome_iff_exists.mpr ⟨s, hs⟩
    | false =>
      rw [if_neg (by simp [he])] at ht
      cases hs : py.nameOf obj with
      | none => rfl
      | some s => exact absurd (h.becomesEnum he hs) (ht.1 s)

theorem toldApart_of_toldByName (hu : py.Unmatched obj)
    (h : ∀ p, py.Within obj p → py.Unmatched p → py.ToldByName p) : py.ToldApart obj := by
  have hname := h obj .refl hu
  have hmade : py.isEnum obj ≠ some true → ∀ items, py.HasDict obj items → ∀ item ∈ items, ∀ v,
      py.Ought item.2 v → py.MakesValue item.2 v := by
    intro he items hdict item hitem v hv
    obtain ⟨depth, hv⟩ := hv
    have hask : py.Asks obj item.2 := .field hu he hdict hitem
    rw [ought_eq fun q hq => h q (.head hask hq)] at hv
    exact ⟨depth, hv⟩
  unfold ToldApart
  unfold ToldByName at hname
  cases he : py.isEnum obj with
  | none =>
    rw [if_neg (by simp)]
    exact hu.becomesRecord (.inl he) (hmade (by simp [he]))
  | some b =>
    simp only [he] at hname
    cases b with
    | true =>
      obtain ⟨s, hs⟩ := Option.isSome_iff_exists.mp hname
      rw [if_pos rfl]
      exact ⟨s, hs, hu.becomesEnum he hs⟩
    | false =>
      rw [if_neg (by simp)]
      exact hu.becomesRecord (.inr hname) (hmade (by simp [he]))

/-- Members of enums and records are told apart in an object and all that is within it exactly if
each of these has a text for its `name` or not as it is a member or not. -/
theorem toldApart_iff (py : PyObjects Obj) (obj : Obj) :
    (∀ p, py.Within obj p → py.Unmatched p → py.ToldApart p) ↔
      ∀ p, py.Within obj p → py.Unmatched p → py.ToldByName p := by
  refine ⟨fun h p hp hu => toldByName_of_toldApart hu (h p hp hu), fun h p hp hu => ?_⟩
  exact toldApart_of_toldByName hu fun q hq => h q (hp.trans hq)

end PyObjects

/-- Some objects of a program: numbers, texts, dicts, members of enums and instances of other
classes with their attributes. -/
inductive Plain where
  | float (x : F64)
  | text (s : String)
  | dict (items : List (Plain × Plain))
  | member (name : String)
  | object (attributes : List (String × Plain))

namespace Plain

def asFloat : Plain → Option F64
  | .float x => some x
  | _ => Option.none

def asString : Plain → Option String
  | .text s => some s
  | _ => Option.none

def asDict : Plain → Option (List (Plain × Plain))
  | .dict items => some items
  | _ => Option.none

def isMember : Plain → Bool
  | .member _ => true
  | _ => false

def getName : Plain → Option Plain
  | .member name => some (.text name)
  | .object attributes => attributes.lookup "name"
  | _ => Option.none

def getDict : Plain → Option Plain
  | .member name => some (.dict [(.text "_name_", .text name)])
  | .object attributes => some (.dict (attributes.map fun a => (.text a.1, a.2)))
  | _ => Option.none

def objects : PyObjects Plain where
  asValue _ := Option.none
  asBool _ := Option.none
  asFloat := asFloat
  asDuration _ := Option.none
  asDateTime _ := Option.none
  asAddress _ := Option.none
  asTuple _ := Option.none
  asU8 _ := Option.none
  asU16 _ := Option.none
  asProtocol _ := Option.none
  asSequence _ := Option.none
  asSet _ := Option.none
  asDict := asDict
  asString := asString
  isNone _ := false
  isEnum o := some o.isMember
  getName := getName
  getDict o := some o.getDict
  repr _ := "<object>"

theorem object_unmatched (attributes : List (String × Plain)) :
    objects.Unmatched (.object attributes) := by
  have h : objects.earlier (objects.extract 1) (.object attributes) =
      List.replicate 13 (.err .raised) := rfl
  refine ⟨1, fun x hx => ?_⟩
  rw [h] at hx
  exact ⟨.raised, List.eq_of_mem_replicate hx⟩

/-- `Y` with the attributes `c = 1` and `d = "2"`. -/
def plainRecord : Plain := .object [("c", .float ⟨0x3FF0000000000000⟩), ("d", .text "2")]

example : objects.extract 2 plainRecord =
    .ok (.record [("c", .real ⟨0x3FF0000000000000⟩), ("d", .string "2")]) := rfl

/-- `Holder` with that as its only attribute. -/
def holder : Plain := .object [("p", plainRecord)]

theorem asks_object {attributes : List (String × Plain)} {p : Plain}
    (h : objects.Asks (.object attributes) p) : p ∈ attributes.map Prod.snd := by
  cases h with
  | item _ hs => simp [objects] at hs
  | element _ hs => simp [objects] at hs
  | key _ hs => simp [objects, asDict] at hs
  | entry _ hs => simp [objects, asDict] at hs
  | field _ _ hs hp =>
    obtain ⟨d, hd, hitems⟩ := hs
    obtain rfl : Plain.dict (attributes.map fun a => (.text a.1, a.2)) = d := by
      simpa [objects, getDict] using hd
    obtain rfl : (attributes.map fun a => (Plain.text a.1, a.2)) = _ := by
      simpa [objects, asDict] using hitems
    obtain ⟨a, ha, rfl⟩ := List.mem_map.mp hp
    exact List.mem_map_of_mem ha

theorem not_asks_scalar {p q : Plain} (hp : (∃ x, p = .float x) ∨ ∃ s, p = .text s) :
    ¬ objects.Asks p q ∧ ¬ objects.Unmatched p := by
  have hu : ¬ objects.Unmatched p := by
    intro hu
    obtain ⟨depth, h⟩ := hu
    rcases hp with ⟨x, rfl⟩ | ⟨s, rfl⟩
    · exact Outcome.not_fails_ok _ (h (.ok (.real x)) (by
        simp [PyObjects.earlier, objects, asFloat, PyObjects.attempt, Outcome.ofOption]))
    · exact Outcome.not_fails_ok _ (h (.ok (.string s)) (by
        simp [PyObjects.earlier, objects, asString, PyObjects.attempt, Outcome.ofOption]))
  refine ⟨fun hask => ?_, hu⟩
  cases hask with
  | item _ hs => simp [objects] at hs
  | element _ hs => simp [objects] at hs
  | key _ hs => rcases hp with ⟨x, rfl⟩ | ⟨s, rfl⟩ <;> simp [objects, asDict] at hs
  | entry _ hs => rcases hp with ⟨x, rfl⟩ | ⟨s, rfl⟩ <;> simp [objects, asDict] at hs
  | field h => exact hu h

/-- Neither the holder nor what it holds has a `name`. -/
theorem holder_toldByName (p : Plain) (hp : objects.Within holder p) (hu : objects.Unmatched p) :
    objects.ToldByName p := by
  rcases hp.cases_head with rfl | ⟨q, hq, hp⟩
  · rfl
  · obtain rfl : q = plainRecord := by simpa using asks_object hq
    rcases hp.cases_head with rfl | ⟨r, hr, hp⟩
    · rfl
    · have hscalar : (∃ x, r = .float x) ∨ ∃ s, r = .text s := by
        rcases List.mem_pair.mp (asks_object hr) with rfl | rfl
        · exact .inl ⟨_, rfl⟩
        · exact .inr ⟨_, rfl⟩
      rcases hp.cases_head with rfl | ⟨r', hr', -⟩
      · exact absurd hu (not_asks_scalar (q := r) hscalar).2
      · exact absurd hr' (not_asks_scalar hscalar).1

theorem holder_toldApart : objects.ToldApart holder :=
  (PyObjects.toldApart_iff objects holder).mpr holder_toldByName holder .refl (object_unmatched _)

/-- `Person(name="Bob", age=42.0)`. -/
def bob : Plain := .object [("name", .text "Bob"), ("age", .float ⟨0x4045000000000000⟩)]

/-- Bob becomes an enum value, and his age is lost. -/
theorem bob_not_toldApart : ¬ (objects.Unmatched bob → objects.ToldApart bob) := by
  intro h
  have henum : objects.MakesValue bob (.enum "Bob") := ⟨2, rfl⟩
  have hrecord : objects.BecomesRecord bob := h (object_unmatched _)
  exact hrecord.1 "Bob" henum

end Plain

end ZWS.Python
