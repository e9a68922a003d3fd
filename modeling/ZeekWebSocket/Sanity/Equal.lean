import ZeekWebSocket.Sanity.Order

/-! What `==` looks at: containers are equal element by element, and of the leaves only
timestamps and reals are equal to others. -/

namespace ZWS

open Base

theorem compareLex_eq_eq {α : Type} {cmp : α → α → Ordering} {xs ys : List α} :
    List.compareLex cmp xs ys = .eq ↔ List.Forall₂ (fun x y => cmp x y = .eq) xs ys := by
  induction xs generalizing ys with
  | nil => cases ys <;> simp [List.compareLex_nil_nil, List.compareLex_nil_cons]
  | cons x xs ih =>
    cases ys with
    | nil => simp [List.compareLex_cons_nil]
    | cons y ys => rw [List.compareLex_cons_cons, Ordering.then_eq_eq, ih, List.forall₂_cons]

theorem compareStr_eq_eq {s t : String} : compareStr s t = .eq ↔ s = t := by
  rw [compareStr, Std.LawfulEqCmp.compare_eq_iff_eq]
  refine ⟨?_, ?_⟩
  · intro h
    have hinj : Function.Injective Char.toNat := fun c d hcd => Char.toNat_inj.mp hcd
    exact String.toList_inj.mp (hinj.list_map h)
  · rintro rfl
    rfl

theorem Duration.cmp_eq_eq {d e : Duration} : d.cmp e = .eq ↔ d = e := by
  rw [Duration.cmp, Ordering.then_eq_eq, Std.LawfulEqCmp.compare_eq_iff_eq,
    Std.LawfulEqCmp.compare_eq_iff_eq, Int64.toInt_inj]
  exact ⟨fun h => Duration.ext h.1 h.2, fun h => h ▸ ⟨rfl, rfl⟩⟩

namespace Value

theorem Equal.discriminant {v w : Value} (h : Equal v w) : v.discriminant = w.discriminant := by
  by_contra hne
  rw [Equal, cmp_variants hne, Nat.compare_eq_eq] at h
  exact hne h

/-- Values of one variant are equal if what they hold is. -/
theorem equal_variant {α : Type} {C : α → Value} {R : α → α → Prop}
    (hC : ∀ a w, (C a).discriminant = w.discriminant → ∃ b, w = C b)
    (hR : ∀ a b, cmp (C a) (C b) = .eq ↔ R a b) (a : α) (w : Value) :
    Equal (C a) w ↔ ∃ b, w = C b ∧ R a b := by
  refine ⟨?_, ?_⟩
  · intro h
    obtain ⟨b, rfl⟩ := hC a w h.discriminant
    exact ⟨b, rfl, (hR a b).mp h⟩
  · intro h
    obtain ⟨b, rfl, hab⟩ := h
    exact (hR a b).mpr hab

/-- A variant whose contents are compared for identity. -/
theorem equal_exact {α : Type} {C : α → Value}
    (hC : ∀ a w, (C a).discriminant = w.discriminant → ∃ b, w = C b)
    (hR : ∀ a b, cmp (C a) (C b) = .eq ↔ a = b) (a : α) (w : Value) : Equal (C a) w ↔ w = C a := by
  rw [equal_variant hC hR]
  simp

theorem equal_vector {xs : List Value} {w : Value} :
    Equal (.vector xs) w ↔ ∃ ys, w = .vector ys ∧ List.Forall₂ Equal xs ys :=
  equal_variant (by intro xs w; cases w <;> simp [Value.discriminant])
    (fun xs ys => by rw [cmp, cmpSeq_eq, compareLex_eq_eq]; rfl) xs w

theorem equal_set {xs : List Value} {w : Value} :
    Equal (.set xs) w ↔ ∃ ys, w = .set ys ∧ List.Forall₂ Equal xs ys :=
  equal_variant (by intro xs w; cases w <;> simp [Value.discriminant])
    (fun xs ys => by rw [cmp, cmpSeq_eq, compareLex_eq_eq]; rfl) xs w

theorem cmpEntry_eq_eq {e f : Value × Value} :
    cmpEntry e f = .eq ↔ Equal e.1 f.1 ∧ Equal e.2 f.2 := by
  rw [cmpEntry, Ordering.then_eq_eq]
  rfl

theorem equal_table {es : List (Value × Value)} {w : Value} :
    Equal (.table es) w ↔
      ∃ fs, w = .table fs ∧ List.Forall₂ (fun e f => Equal e.1 f.1 ∧ Equal e.2 f.2) es fs :=
  equal_variant (by intro es w; cases w <;> simp [Value.discriminant])
    (fun es fs => by simp only [cmp, cmpEntries_eq, compareLex_eq_eq, cmpEntry_eq_eq]) es w

theorem equal_count {n : UInt64} {w : Value} : Equal (.count n) w ↔ w = .count n :=
  equal_exact (by intro n w; cases w <;> simp [Value.discriminant])
    (fun n m => by rw [cmp, Nat.compare_eq_eq, UInt64.toNat_inj]) n w

theorem equal_string {s : String} {w : Value} : Equal (.string s) w ↔ w = .string s :=
  equal_exact (by intro s w; cases w <;> simp [Value.discriminant])
    (fun s t => by rw [cmp, compareStr_eq_eq]) s w

theorem equal_timespan {d : Duration} {w : Value} : Equal (.timespan d) w ↔ w = .timespan d :=
  equal_exact (by intro d w; cases w <;> simp [Value.discriminant])
    (fun d e => by rw [cmp, Duration.cmp_eq_eq]) d w

end Value

end ZWS
