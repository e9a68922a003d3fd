import Mathlib

/-! JSON trees and the numbers in them. Object fields keep their order and their
duplicates, since a reader meets both. -/

namespace Base

/-- An IEEE 754 double by its bits. -/
structure F64 where
  bits : UInt64
  deriving DecidableEq, Repr

namespace F64

def negative (x : F64) : Bool := 2 ^ 63 ≤ x.bits.toNat

def magnitude (x : F64) : ℕ := x.bits.toNat % 2 ^ 63

/-- The bits of positive infinity; everything above them is NaN. -/
def infinity : ℕ := 2047 * 2 ^ 52

def isNaN (x : F64) : Bool := infinity < x.magnitude

def isFinite (x : F64) : Bool := x.magnitude < infinity

/-- `OrderedFloat` compares by value, takes both zeros for equal and puts every NaN on top. -/
def orderKey (x : F64) : ℤ :=
  if x.isNaN then 2 ^ 63 else if x.negative then -(x.magnitude : ℤ) else x.magnitude

/-- The bits of the double nearest to `n`, ties to even. -/
def roundNat (n : ℕ) : ℕ :=
  if n = 0 then 0
  else
    let e := n.log2
    if e ≤ 52 then (1023 + e) * 2 ^ 52 + (n * 2 ^ (52 - e) - 2 ^ 52)
    else
      let half := 2 ^ (e - 53)
      let q := n / (2 * half)
      let r := n % (2 * half)
      -- rounding up to the next binade carries into the exponent
      (1023 + e) * 2 ^ 52 + (q - 2 ^ 52) + if half < r ∨ r = half ∧ q % 2 = 1 then 1 else 0

/-- `n as f64` for the integers a JSON number holds. -/
def ofInt (n : ℤ) : F64 :=
  if n < 0 then ⟨UInt64.ofNat (2 ^ 63 + roundNat n.natAbs)⟩ else ⟨UInt64.ofNat (roundNat n.natAbs)⟩

theorem roundNat_lt_infinity {n : ℕ} (h : n < 2 ^ 64) : roundNat n < infinity := by
  unfold roundNat infinity
  split
  · norm_num
  · next hn =>
    have he : n.log2 < 64 := (Nat.log2_lt hn).mpr h
    have hlt : n < 2 ^ (n.log2 + 1) := (Nat.log2_lt hn).mp (by omega)
    dsimp only
    split
    · next hle =>
      have hb : n * 2 ^ (52 - n.log2) < 2 ^ 53 := by
        calc n * 2 ^ (52 - n.log2) < 2 ^ (n.log2 + 1) * 2 ^ (52 - n.log2) := by gcongr
          _ = 2 ^ 53 := by rw [← pow_add]; congr 1; omega
      have := Nat.mul_le_mul_right (2 ^ 52) (show 1023 + n.log2 ≤ 1023 + 52 by omega)
      omega
    · next hgt =>
      have hq : n / (2 * 2 ^ (n.log2 - 53)) < 2 ^ 53 := by
        rw [← pow_succ', Nat.div_lt_iff_lt_mul (by positivity), ← pow_add]
        exact lt_of_lt_of_le hlt (Nat.pow_le_pow_right (by norm_num) (by omega))
      have := Nat.mul_le_mul_right (2 ^ 52) (show 1023 + n.log2 ≤ 1023 + 63 by omega)
      split <;> omega

/-- No integer is so large that its nearest double is infinite. -/
theorem ofInt_isFinite {n : ℤ} (h : n.natAbs < 2 ^ 64) : (ofInt n).isFinite := by
  have hr := roundNat_lt_infinity h
  unfold infinity at hr
  unfold ofInt isFinite magnitude infinity
  split <;> simp <;> omega

end F64

/-- A JSON number. Text has no way to write an infinite one. -/
inductive Number where
  | posInt (n : UInt64)
  | negInt (n : Int64) (neg : n.toInt < 0)
  | float (x : F64) (finite : x.isFinite)

inductive Json where
  | null
  | bool (b : Bool)
  | num (n : Number)
  | str (s : String)
  | arr (xs : List Json)
  | obj (fs : List (String × Json))

namespace Json

/-- The elements of an array, the values of an object. -/
def children : Json → List Json
  | .arr xs => xs
  | .obj fs => fs.map Prod.snd
  | _ => []

/-- Induction over a tree, with the hypothesis at every child. -/
@[elab_as_elim]
theorem induct {P : Json → Prop} (node : ∀ j, (∀ c ∈ j.children, P c) → P j) (j : Json) : P j :=
  @Json.rec P (fun xs => ∀ x ∈ xs, P x) (fun fs => ∀ f ∈ fs, P f.2) (fun f => P f.2)
    (node _ (by simp [children])) (fun _ => node _ (by simp [children]))
    (fun _ => node _ (by simp [children])) (fun _ => node _ (by simp [children]))
    (fun xs h => node (.arr xs) h) (fun fs h => node (.obj fs) (List.forall_mem_map.mpr h)) (by simp)
    (fun _ _ h hs => List.forall_mem_cons.mpr ⟨h, hs⟩) (by simp)
    (fun _ _ h hs => List.forall_mem_cons.mpr ⟨h, hs⟩) (fun _ _ h => h) j

/-- The same document with the fields of its objects in another order. -/
inductive Reordered : Json → Json → Prop
  | null : Reordered .null .null
  | bool {b} : Reordered (.bool b) (.bool b)
  | num {n} : Reordered (.num n) (.num n)
  | str {s} : Reordered (.str s) (.str s)
  | arr {xs ys} (h : List.Forall₂ Reordered xs ys) : Reordered (.arr xs) (.arr ys)
  | obj {fs gs hs : List (String × Json)} (hk : fs.map Prod.fst = gs.map Prod.fst)
    (hv : List.Forall₂ Reordered (fs.map Prod.snd) (gs.map Prod.snd)) (hp : gs.Perm hs) :
    Reordered (.obj fs) (.obj hs)

/-- The same field of two such documents. -/
def SameField (f g : String × Json) : Prop := f.1 = g.1 ∧ Reordered f.2 g.2

theorem sameFields_iff {fs gs : List (String × Json)} :
    List.Forall₂ SameField fs gs ↔ fs.map Prod.fst = gs.map Prod.fst ∧
      List.Forall₂ Reordered (fs.map Prod.snd) (gs.map Prod.snd) := by
  induction fs generalizing gs with
  | nil => cases gs <;> simp
  | cons f fs ih =>
    cases gs with
    | nil => simp
    | cons g gs => simp [SameField, ih, and_and_and_comm]

/-- However the fields of an object are listed, the other object has a list of the same fields. -/
theorem Reordered.fields {fs fs' : List (String × Json)} {j : Json} (h : Reordered (.obj fs) j)
    (hp : fs.Perm fs') : ∃ gs gs', j = .obj gs ∧ gs'.Perm gs ∧ List.Forall₂ SameField fs' gs' := by
  cases h with
  | @obj _ gs hs hk hv hperm =>
    obtain ⟨gs', hgs', hp'⟩ := List.perm_comp_forall₂ hp.symm (sameFields_iff.mpr ⟨hk, hv⟩)
    exact ⟨hs, gs', rfl, hp'.trans hperm, hgs'⟩

theorem Reordered.of_fields {fs fs' gs gs' : List (String × Json)} (hp : fs.Perm fs')
    (h : List.Forall₂ SameField fs' gs') (hp' : gs'.Perm gs) : Reordered (.obj fs) (.obj gs) := by
  obtain ⟨hs, hf, hp''⟩ := List.perm_comp_forall₂ hp h
  obtain ⟨hk, hv⟩ := sameFields_iff.mp hf
  exact .obj hk hv (hp''.trans hp')

theorem Reordered.refl (j : Json) : Reordered j j := by
  induction j using induct with
  | node j ih =>
    cases j with
    | null => exact .null
    | bool b => exact .bool
    | num n => exact .num
    | str s => exact .str
    | arr xs => exact .arr (List.forall₂_same.mpr ih)
    | obj fs => exact .obj rfl (List.forall₂_same.mpr ih) (.refl _)

theorem Reordered.symm {j k : Json} (h : Reordered j k) : Reordered k j := by
  have hflip : ∀ {xs ys : List Json}, (∀ x ∈ xs, ∀ {y}, Reordered x y → Reordered y x) →
      List.Forall₂ Reordered xs ys → List.Forall₂ Reordered ys xs := fun {xs ys} ih h =>
    (((List.forall₂_and_left xs ys).mpr ⟨fun x hx => @ih x hx, h⟩).imp fun _ _ h => h.1 h.2).flip
  induction j using induct generalizing k with
  | node j ih =>
    cases h with
    | null => exact .null
    | bool => exact .bool
    | num => exact .num
    | str => exact .str
    | arr h => exact .arr (hflip ih h)
    | obj hk hv hp => exact .of_fields hp.symm (sameFields_iff.mpr ⟨hk.symm, hflip ih hv⟩) (.refl _)

end Json

end Base
