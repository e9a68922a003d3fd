import ZeekWebSocket.Library.OrderCode
import ZeekWebSocket.Spec.Value

/-! The derived order on values is a total order up to `==`: comparing two values is
comparing their codes lexicographically. What a B-tree needs of its keys follows, and
so does all that `==` and rewriting of timestamps preserve. -/

namespace ZWS

open Base

namespace Value

def textCode (s : String) : List ℤ := seqCode (fun n : ℕ => [(n : ℤ)]) (s.toList.map Char.toNat)

def addressCode : IpAddr → List ℤ
  | .v4 a => [0, a.toNat]
  | .v6 a => [1, a.toNat]

def subnetCode : IpNetwork → List ℤ
  | .v4 a m => [0, a.toNat, m.val]
  | .v6 a m => [1, a.toNat, m.val]

mutual
/-- The variant, then the payload. -/
def code : Value → List ℤ
  | .none => [0]
  | .boolean b => [1, b.toNat]
  | .count n => [2, n.toNat]
  | .integer n => [3, n.toInt]
  | .real x => [4, x.orderKey]
  | .timespan d => [5, d.seconds.toInt, d.nanoseconds]
  | .timestamp t => [6, t.unixNanos]
  | .string s => 7 :: textCode s
  | .enumValue s => 8 :: textCode s
  | .address a => 9 :: addressCode a
  | .subnet n => 10 :: subnetCode n
  | .port p => [11, p.number.toNat, p.protocol.discriminant]
  | .vector xs => 12 :: codeSeq xs
  | .set xs => 13 :: codeSeq xs
  | .table es => 14 :: codeEntries es
def codeSeq : List Value → List ℤ
  | [] => [0]
  | x :: xs => 1 :: (code x ++ codeSeq xs)
def codeEntries : List (Value × Value) → List ℤ
  | [] => [0]
  | (k, v) :: es => 1 :: (code k ++ code v ++ codeEntries es)
end

def entryCode (e : Value × Value) : List ℤ := e.1.code ++ e.2.code

/-- Entries of a table compare by key and then by value. -/
def cmpEntry (e f : Value × Value) : Ordering := (cmp e.1 f.1).then (cmp e.2 f.2)

mutual
theorem codeSeq_eq (xs : List Value) : codeSeq xs = seqCode code xs := by
  induction xs with
  | nil => rfl
  | cons x xs ih => rw [codeSeq, seqCode, ih]

theorem codeEntries_eq (es : List (Value × Value)) : codeEntries es = seqCode entryCode es := by
  induction es with
  | nil => rfl
  | cons e es ih => rw [codeEntries, seqCode, ih, entryCode]
end

mutual
theorem cmpSeq_eq (xs ys : List Value) : cmpSeq xs ys = List.compareLex cmp xs ys := by
  induction xs generalizing ys with
  | nil => cases ys <;> simp [cmpSeq, List.compareLex_nil_nil, List.compareLex_nil_cons]
  | cons x xs ih =>
    cases ys with
    | nil => simp [cmpSeq, List.compareLex_cons_nil]
    | cons y ys => rw [cmpSeq, List.compareLex_cons_cons, ih]

theorem cmpEntries_eq (es fs : List (Value × Value)) :
    cmpEntries es fs = List.compareLex cmpEntry es fs := by
  induction es generalizing fs with
  | nil => cases fs <;> simp [cmpEntries, List.compareLex_nil_nil, List.compareLex_nil_cons]
  | cons e es ih =>
    cases fs with
    | nil => simp [cmpEntries, List.compareLex_cons_nil]
    | cons f fs => rw [cmpEntries, List.compareLex_cons_cons, ih, cmpEntry]
end

theorem codeAt_text (s : String) : CodeAt compareStr textCode s := by
  intro t u w
  have h : CodeAt (List.compareLex compare) (seqCode fun n : ℕ => [(n : ℤ)])
      (s.toList.map Char.toNat) := CodeAt.seq fun n _ m _ _ => by simp [compare_natCast]
  rw [compareStr, List.compare_eq_compareLex]
  exact h (t.toList.map Char.toNat) u w

instance : Std.TransCmp compareStr := transCmp_of_code fun s => (codeAt_text s).eq_compare

theorem codeAt_address (a : IpAddr) : CodeAt IpAddr.cmp addressCode a := by
  intro b s t
  cases a <;> cases b <;>
    simp [addressCode, IpAddr.cmp, compare_natCast, show compare (0 : ℤ) 1 = .lt by decide,
      show compare (1 : ℤ) 0 = .gt by decide]

theorem codeAt_subnet (n : IpNetwork) : CodeAt IpNetwork.cmp subnetCode n := by
  intro m s t
  cases n <;> cases m <;>
    simp [subnetCode, IpNetwork.cmp, compare_natCast, Ordering.then_assoc,
      show compare (0 : ℤ) 1 = .lt by decide, show compare (1 : ℤ) 0 = .gt by decide]

theorem code_head (v : Value) : ∃ tl, v.code = (v.discriminant : ℤ) :: tl := by
  cases v <;> exact ⟨_, rfl⟩

/-- Different variants are told apart by the first integer of their codes. -/
theorem codeAt_variants {v w : Value} (h : v.discriminant ≠ w.discriminant) (s t : List ℤ) :
    compare (v.code ++ s) (w.code ++ t) =
      (compare v.discriminant w.discriminant).then (compare s t) := by
  obtain ⟨tv, hv⟩ := v.code_head
  obtain ⟨tw, hw⟩ := w.code_head
  rw [hv, hw, compare_heads h]

theorem cmp_variants {v w : Value} (h : v.discriminant ≠ w.discriminant) :
    cmp v w = compare v.discriminant w.discriminant := by
  cases v <;> cases w <;> first | rfl | exact absurd rfl h

theorem codeAt (v : Value) : CodeAt cmp code v := by
  induction v using induct with
  | leaf v hv =>
    intro w s t
    by_cases hd : v.discriminant = w.discriminant
    · cases v <;> cases w <;> first
        | (simp [discriminant] at hd; done)
        | (simp [discriminant] at hv; done)
        | simp [code, cmp, compare_natCast, Ordering.then_assoc, Duration.cmp, Port.cmp,
            codeAt_text _ _ s t, codeAt_address _ _ s t, codeAt_subnet _ _ s t]
    · rw [cmp_variants hd, codeAt_variants hd]
  | vector xs ih =>
    intro w s t
    by_cases hd : (vector xs).discriminant = w.discriminant
    · cases w with
      | vector ys =>
        simp only [code, codeSeq_eq, cmp, cmpSeq_eq, List.cons_append, compare_cons]
        exact CodeAt.seq ih ys s t
      | _ => simp [discriminant] at hd
    · rw [cmp_variants hd, codeAt_variants hd]
  | set xs ih =>
    intro w s t
    by_cases hd : (set xs).discriminant = w.discriminant
    · cases w with
      | set ys =>
        simp only [code, codeSeq_eq, cmp, cmpSeq_eq, List.cons_append, compare_cons]
        exact CodeAt.seq ih ys s t
      | _ => simp [discriminant] at hd
    · rw [cmp_variants hd, codeAt_variants hd]
  | table es ih =>
    intro w s t
    by_cases hd : (table es).discriminant = w.discriminant
    · cases w with
      | table fs =>
        simp only [code, codeEntries_eq, cmp, cmpEntries_eq, List.cons_append, compare_cons]
        refine CodeAt.seq (fun e he f s t => ?_) fs s t
        simp only [entryCode, cmpEntry, List.append_assoc, (ih e he).1 f.1, (ih e he).2 f.2,
          Ordering.then_assoc]
      | _ => simp [discriminant] at hd
    · rw [cmp_variants hd, codeAt_variants hd]

theorem cmp_eq_compare (v w : Value) : cmp v w = compare v.code w.code := (codeAt v).eq_compare w

instance : Std.TransCmp cmp := transCmp_of_code cmp_eq_compare

theorem equal_iff {v w : Value} : Equal v w ↔ v.code = w.code := by
  rw [Equal, cmp_eq_compare, Std.LawfulEqCmp.compare_eq_iff_eq]

@[simp] theorem Equal.refl (v : Value) : Equal v v := equal_iff.mpr rfl

theorem Equal.symm {v w : Value} (h : Equal v w) : Equal w v := equal_iff.mpr (equal_iff.mp h).symm

theorem Equal.trans {u v w : Value} (h : Equal u v) (h' : Equal v w) : Equal u w :=
  equal_iff.mpr ((equal_iff.mp h).trans (equal_iff.mp h'))

theorem cmp_congr {v v' w w' : Value} (hv : Equal v v') (hw : Equal w w') :
    cmp v w = cmp v' w' := by
  rw [cmp_eq_compare, cmp_eq_compare, equal_iff.mp hv, equal_iff.mp hw]

end Value
end ZWS
