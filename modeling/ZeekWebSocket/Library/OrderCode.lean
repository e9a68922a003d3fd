import Mathlib

/-! Comparators that are lexicographic comparison of integer codes. A code that
settles the comparison whatever follows it can be put in front of another, so codes of
pairs and sequences are built from codes of their elements. -/

namespace Base

variable {α β : Type}

/-- The code of `x` decides every comparison with `x`, and leaves ties to what follows. -/
def CodeAt (cmp : α → α → Ordering) (f : α → List ℤ) (x : α) : Prop :=
  ∀ y s t, compare (f x ++ s) (f y ++ t) = (cmp x y).then (compare s t)

/-- Every element announced by 1, the end by 0. -/
def seqCode (f : α → List ℤ) : List α → List ℤ
  | [] => [0]
  | x :: xs => 1 :: (f x ++ seqCode f xs)

theorem compare_cons (x y : ℤ) (s t : List ℤ) :
    compare (x :: s) (y :: t) = (compare x y).then (compare s t) := List.compare_cons_cons

theorem compare_natCast (a b : ℕ) : compare (a : ℤ) (b : ℤ) = compare a b := by
  simp only [compare, compareOfLessAndEq, Int.ofNat_lt, Int.ofNat_inj]

/-- Different first integers decide. -/
theorem compare_heads {m n : ℕ} (h : m ≠ n) (s t s' t' : List ℤ) :
    compare ((m : ℤ) :: s ++ s') ((n : ℤ) :: t ++ t') = (compare m n).then (compare s' t') := by
  rw [List.cons_append, List.cons_append, compare_cons, compare_natCast]
  cases hc : compare m n with
  | eq => exact absurd (Nat.compare_eq_eq.mp hc) h
  | lt => rfl
  | gt => rfl

theorem CodeAt.seq {cmp : α → α → Ordering} {f : α → List ℤ} {xs : List α}
    (h : ∀ x ∈ xs, CodeAt cmp f x) : CodeAt (List.compareLex cmp) (seqCode f) xs := by
  have h01 : compare (0 : ℤ) 1 = .lt := by decide
  have h10 : compare (1 : ℤ) 0 = .gt := by decide
  have h11 : compare (1 : ℤ) 1 = .eq := by decide
  intro ys s t
  induction xs generalizing ys with
  | nil =>
    cases ys with
    | nil => simp [seqCode, List.compareLex_nil_nil]
    | cons y ys =>
      rw [List.compareLex_nil_cons]
      simp [seqCode, h01]
  | cons x xs ih =>
    cases ys with
    | nil =>
      rw [List.compareLex_cons_nil]
      simp [seqCode, h10]
    | cons y ys =>
      have hx := h x (by simp)
      rw [List.compareLex_cons_cons, Ordering.then_assoc, ← ih fun z hz => h z (by simp [hz]), ← hx y]
      simp only [seqCode, List.cons_append, List.append_assoc, compare_cons, h11]
      rfl

/-- A comparator with a code is a total preorder. -/
theorem transCmp_of_code {cmp : α → α → Ordering} {f : α → List ℤ}
    (h : ∀ x y, cmp x y = compare (f x) (f y)) : Std.TransCmp cmp where
  eq_swap := by
    intro a b
    rw [h, h]
    exact Std.OrientedCmp.eq_swap
  isLE_trans := by
    intro a b c
    rw [h, h, h]
    exact Std.TransCmp.isLE_trans

theorem CodeAt.eq_compare {cmp : α → α → Ordering} {f : α → List ℤ} {x : α}
    (h : CodeAt cmp f x) (y : α) : cmp x y = compare (f x) (f y) := by
  simpa using (h y [] []).symm

end Base
