import Mathlib

/-! Ordered collections as strictly ascending lists under a comparator, built by
inserting one element after another. -/

namespace Base

variable {α κ β : Type}

/-- Strictly ascending, the shape every ordered set and map is kept in. -/
def Ascending (cmp : α → α → Ordering) (xs : List α) : Prop :=
  xs.Pairwise fun a b => cmp a b = .lt

/-- Insert `x` at its place. Of two equal elements `pick old new` stays. -/
def insertBy (cmp : α → α → Ordering) (pick : α → α → α) (x : α) : List α → List α
  | [] => [x]
  | y :: ys =>
    match cmp x y with
    | .lt => x :: y :: ys
    | .eq => pick y x :: ys
    | .gt => y :: insertBy cmp pick x ys

/-- Insert the elements of a list from left to right into an empty collection. -/
def collectBy (cmp : α → α → Ordering) (pick : α → α → α) (xs : List α) : List α :=
  xs.foldl (fun acc x => insertBy cmp pick x acc) []

def keepOld (old _new : α) : α := old

def keepNew (_old new : α) : α := new

theorem keepNew_picks (a b : α) : keepNew a b = a ∨ keepNew a b = b := .inr rfl

/-- Entries of a map are ordered by their keys alone. -/
def byKey (cmp : κ → κ → Ordering) (a b : κ × β) : Ordering := cmp a.1 b.1

instance {cmp : κ → κ → Ordering} [Std.TransCmp cmp] :
    Std.TransCmp (byKey (β := β) cmp) where
  eq_swap {a b} := @Std.OrientedCmp.eq_swap _ cmp _ a.1 b.1
  isLE_trans {a b c} := @Std.TransCmp.isLE_trans _ cmp _ a.1 b.1 c.1

section
variable {cmp : α → α → Ordering} {pick : α → α → α}

theorem mem_insertBy (hp : ∀ a b, pick a b = a ∨ pick a b = b) {x z : α} {xs : List α}
    (h : z ∈ insertBy cmp pick x xs) : z = x ∨ z ∈ xs := by
  induction xs with
  | nil => simpa [insertBy] using h
  | cons y ys ih =>
    simp only [insertBy] at h
    split at h
    · simpa using h
    · rcases List.mem_cons.mp h with rfl | h
      · rcases hp y x with e | e <;> simp [e]
      · simp [h]
    · rcases List.mem_cons.mp h with rfl | h
      · simp
      · rcases ih h with h | h <;> simp [h]

theorem collectBy_append_singleton (xs : List α) (x : α) :
    collectBy cmp pick (xs ++ [x]) = insertBy cmp pick x (collectBy cmp pick xs) := by
  simp only [collectBy, List.foldl_append, List.foldl_cons, List.foldl_nil]

theorem mem_collectBy (hp : ∀ a b, pick a b = a ∨ pick a b = b) {z : α} {xs : List α}
    (h : z ∈ collectBy cmp pick xs) : z ∈ xs := by
  induction xs using List.reverseRecOn with
  | nil => simp [collectBy] at h
  | append_singleton xs x ih =>
    rw [collectBy_append_singleton] at h
    rcases mem_insertBy hp h with rfl | h
    · simp
    · simp [ih h]

theorem insertBy_ne_nil (x : α) (ys : List α) : insertBy cmp pick x ys ≠ [] := by
  cases ys with
  | nil => simp [insertBy]
  | cons y ys =>
    simp only [insertBy]
    split <;> simp

theorem collectBy_eq_nil {xs : List α} : collectBy cmp pick xs = [] ↔ xs = [] := by
  induction xs using List.reverseRecOn with
  | nil => simp [collectBy]
  | append_singleton xs x ih => simp [collectBy_append_singleton, insertBy_ne_nil]

variable [Std.TransCmp cmp]

theorem cmp_pick (hp : ∀ a b, pick a b = a ∨ pick a b = b) {x y : α} (h : cmp x y = .eq) :
    cmp (pick y x) y = .eq := by
  rcases hp y x with e | e
  · rw [e]; exact Std.ReflCmp.compare_self
  · rw [e]; exact h

theorem insertBy_ascending (hp : ∀ a b, pick a b = a ∨ pick a b = b) (x : α) {xs : List α}
    (h : Ascending cmp xs) : Ascending cmp (insertBy cmp pick x xs) := by
  induction xs with
  | nil => simp [insertBy, Ascending]
  | cons y ys ih =>
    obtain ⟨hy, hys⟩ := List.pairwise_cons.mp h
    simp only [insertBy]
    split
    · next hlt =>
      refine List.pairwise_cons.mpr ⟨fun z hz => ?_, h⟩
      rcases List.mem_cons.mp hz with rfl | hz
      · exact hlt
      · exact Std.TransCmp.lt_trans hlt (hy z hz)
    · next heq =>
      refine List.pairwise_cons.mpr ⟨fun z hz => ?_, hys⟩
      exact Std.TransCmp.lt_of_eq_of_lt (cmp_pick hp heq) (hy z hz)
    · next hgt =>
      refine List.pairwise_cons.mpr ⟨fun z hz => ?_, ih hys⟩
      rcases mem_insertBy hp hz with rfl | hz
      · exact Std.OrientedCmp.lt_of_gt hgt
      · exact hy z hz

theorem collectBy_ascending (hp : ∀ a b, pick a b = a ∨ pick a b = b) (xs : List α) :
    Ascending cmp (collectBy cmp pick xs) := by
  induction xs using List.reverseRecOn with
  | nil => simp [collectBy, Ascending]
  | append_singleton xs x ih =>
    rw [collectBy_append_singleton]
    exact insertBy_ascending hp x ih

theorem exists_mem_insertBy_self (hp : ∀ a b, pick a b = a ∨ pick a b = b) (x : α) (ys : List α) :
    ∃ z ∈ insertBy cmp pick x ys, cmp x z = .eq := by
  induction ys with
  | nil => exact ⟨x, by simp [insertBy], Std.ReflCmp.compare_self⟩
  | cons y ys ih =>
    simp only [insertBy]
    split
    · exact ⟨x, by simp, Std.ReflCmp.compare_self⟩
    · next heq =>
      refine ⟨pick y x, by simp, ?_⟩
      exact Std.TransCmp.eq_trans heq (Std.OrientedCmp.eq_symm (cmp_pick hp heq))
    · obtain ⟨z, hz, he⟩ := ih
      exact ⟨z, by simp [hz], he⟩

theorem exists_mem_insertBy (hp : ∀ a b, pick a b = a ∨ pick a b = b) (x : α) {y : α} {ys : List α}
    (hy : y ∈ ys) : ∃ z ∈ insertBy cmp pick x ys, cmp y z = .eq := by
  induction ys with
  | nil => simp at hy
  | cons w ws ih =>
    simp only [insertBy]
    split
    · exact ⟨y, List.mem_cons_of_mem x hy, Std.ReflCmp.compare_self⟩
    · next heq =>
      rcases List.mem_cons.mp hy with rfl | hy
      · exact ⟨pick y x, by simp, Std.OrientedCmp.eq_symm (cmp_pick hp heq)⟩
      · exact ⟨y, by simp [hy], Std.ReflCmp.compare_self⟩
    · rcases List.mem_cons.mp hy with rfl | hy
      · exact ⟨y, by simp, Std.ReflCmp.compare_self⟩
      · obtain ⟨z, hz, he⟩ := ih hy
        exact ⟨z, by simp [hz], he⟩

/-- Whatever is collected, something equal to it is there in the end. -/
theorem exists_mem_collectBy (hp : ∀ a b, pick a b = a ∨ pick a b = b) {x : α} {xs : List α}
    (hx : x ∈ xs) : ∃ y ∈ collectBy cmp pick xs, cmp x y = .eq := by
  induction xs using List.reverseRecOn with
  | nil => simp at hx
  | append_singleton xs w ih =>
    rw [collectBy_append_singleton]
    rcases List.mem_append.mp hx with hx | hx
    · obtain ⟨y, hy, hxy⟩ := ih hx
      obtain ⟨z, hz, hyz⟩ : ∃ z ∈ insertBy cmp pick w (collectBy cmp pick xs), cmp y z = .eq :=
        exists_mem_insertBy hp w hy
      exact ⟨z, hz, Std.TransCmp.eq_trans hxy hyz⟩
    · obtain rfl := List.mem_singleton.mp hx
      exact exists_mem_insertBy_self hp x _

theorem mem_insertBy_keepNew {x z : α} {ys : List α} (h : Ascending cmp ys) :
    z ∈ insertBy cmp keepNew x ys ↔ z = x ∨ z ∈ ys ∧ cmp z x ≠ .eq := by
  induction ys with
  | nil => simp [insertBy]
  | cons y ys ih =>
    obtain ⟨hy, hys⟩ := List.pairwise_cons.mp h
    simp only [insertBy]
    split
    · next hlt =>
      have hne : ∀ w ∈ y :: ys, cmp w x ≠ .eq := by
        intro w hw he
        have hxw : cmp x w = .lt := by
          rcases List.mem_cons.mp hw with rfl | hw
          · exact hlt
          · exact Std.TransCmp.lt_trans hlt (hy w hw)
        have hxe : cmp x w = .eq := Std.OrientedCmp.eq_symm he
        exact absurd (hxe.symm.trans hxw) (by decide)
      rw [List.mem_cons]
      exact or_congr_right ⟨fun hz => ⟨hz, hne z hz⟩, fun hz => hz.1⟩
    · next heq =>
      have hyx : cmp y x = .eq := Std.OrientedCmp.eq_symm heq
      have hne : ∀ w ∈ ys, cmp w x ≠ .eq := by
        intro w hw he
        have hye : cmp y w = .eq := Std.TransCmp.eq_trans hyx (Std.OrientedCmp.eq_symm he)
        exact absurd (hye.symm.trans (hy w hw)) (by decide)
      simp only [List.mem_cons, keepNew]
      refine or_congr_right ⟨fun hz => ⟨Or.inr hz, hne z hz⟩, ?_⟩
      rintro ⟨rfl | hz, hzx⟩
      · exact absurd hyx hzx
      · exact hz
    · next hgt =>
      have hlt : cmp y x = .lt := Std.OrientedCmp.lt_of_gt hgt
      have hyx : cmp y x ≠ .eq := by
        rw [hlt]
        decide
      rw [List.mem_cons, ih hys, List.mem_cons]
      refine ⟨?_, ?_⟩
      · rintro (rfl | rfl | ⟨hz, hne⟩)
        · exact Or.inr ⟨Or.inl rfl, hyx⟩
        · exact Or.inl rfl
        · exact Or.inr ⟨Or.inr hz, hne⟩
      · rintro (rfl | ⟨rfl | hz, hne⟩)
        · exact Or.inr (Or.inl rfl)
        · exact Or.inl rfl
        · exact Or.inr (Or.inr ⟨hz, hne⟩)

/-- Where the newest stays, each element that stays is the last of its equals. -/
theorem mem_collectBy_keepNew {z : α} {xs : List α} :
    z ∈ collectBy cmp keepNew xs ↔
      ∃ pre post, xs = pre ++ z :: post ∧ ∀ y ∈ post, cmp z y ≠ .eq := by
  induction xs using List.reverseRecOn with
  | nil => simp [collectBy]
  | append_singleton xs x ih =>
    have hasc : Ascending cmp (collectBy cmp keepNew xs) := collectBy_ascending keepNew_picks xs
    rw [collectBy_append_singleton, mem_insertBy_keepNew hasc]
    refine ⟨?_, ?_⟩
    · rintro (rfl | ⟨hz, hzx⟩)
      · exact ⟨xs, [], rfl, by simp⟩
      · obtain ⟨pre, post, rfl, hpost⟩ := ih.mp hz
        exact ⟨pre, post ++ [x], by simp, by simpa [or_imp, forall_and] using ⟨hpost, hzx⟩⟩
    · intro h
      obtain ⟨pre, post, heq, hpost⟩ := h
      rcases List.eq_nil_or_concat post with rfl | ⟨post, y, rfl⟩
      · obtain ⟨-, hx⟩ := List.append_inj' heq rfl
        exact Or.inl (List.cons.inj hx).1.symm
      · rw [List.concat_eq_append, ← List.cons_append, ← List.append_assoc] at heq
        rw [List.concat_eq_append] at hpost
        obtain ⟨rfl, hx⟩ := List.append_inj' heq rfl
        obtain rfl := (List.cons.inj hx).1
        have hz := ih.mpr ⟨pre, post, rfl, fun w hw => hpost w (by simp [hw])⟩
        exact Or.inr ⟨hz, hpost x (by simp)⟩

/-- An element above all others goes to the end. -/
theorem insertBy_eq_append {x : α} {xs : List α} (h : ∀ y ∈ xs, cmp y x = .lt) :
    insertBy cmp pick x xs = xs ++ [x] := by
  induction xs with
  | nil => rfl
  | cons y ys ih =>
    have hgt : cmp x y = .gt := Std.OrientedCmp.gt_of_lt (h y (by simp))
    simp only [insertBy, hgt, List.cons_append]
    rw [ih fun z hz => h z (by simp [hz])]

/-- Collecting an ascending list loses, merges and moves nothing. -/
theorem collectBy_of_ascending {xs : List α} (h : Ascending cmp xs) :
    collectBy cmp pick xs = xs := by
  induction xs using List.reverseRecOn with
  | nil => rfl
  | append_singleton xs x ih =>
    obtain ⟨hxs, -, hlt⟩ := List.pairwise_append.mp h
    rw [collectBy_append_singleton, ih hxs]
    exact insertBy_eq_append fun y hy => hlt y hy x (by simp)

end

section
variable {cmp : α → α → Ordering} {pick : α → α → α}

/-- A new element is added to what is there. -/
theorem insertBy_perm {x : α} {ys : List α} (h : ∀ y ∈ ys, cmp x y ≠ .eq) :
    (insertBy cmp pick x ys).Perm (x :: ys) := by
  induction ys with
  | nil => exact List.Perm.refl _
  | cons y ys ih =>
    obtain ⟨hy, hys⟩ := List.forall_mem_cons.mp h
    simp only [insertBy]
    split
    · exact List.Perm.refl _
    · next heq => exact absurd heq hy
    · exact ((ih hys).cons y).trans (List.Perm.swap x y ys)

/-- Collecting elements that are all different loses and merges none. -/
theorem collectBy_perm (hp : ∀ a b, pick a b = a ∨ pick a b = b) {xs : List α}
    (h : xs.Pairwise fun a b => cmp b a ≠ .eq) : (collectBy cmp pick xs).Perm xs := by
  induction xs using List.reverseRecOn with
  | nil => exact List.Perm.refl _
  | append_singleton xs x ih =>
    obtain ⟨hxs, -, hx⟩ := List.pairwise_append.mp h
    rw [collectBy_append_singleton]
    have hnew : ∀ y ∈ collectBy cmp pick xs, cmp x y ≠ .eq := fun y hy =>
      hx y (mem_collectBy hp hy) x (by simp)
    exact (insertBy_perm hnew).trans (((ih hxs).cons x).trans (List.perm_append_singleton x xs).symm)

theorem insertBy_pick {pick' : α → α → α} {x : α} {ys : List α} (h : ∀ y ∈ ys, cmp x y ≠ .eq) :
    insertBy cmp pick x ys = insertBy cmp pick' x ys := by
  induction ys with
  | nil => rfl
  | cons y ys ih =>
    obtain ⟨hy, hys⟩ := List.forall_mem_cons.mp h
    simp only [insertBy]
    split
    · rfl
    · next heq => exact absurd heq hy
    · rw [ih hys]

/-- Among elements that are all different there is nothing to pick. -/
theorem collectBy_pick {pick' : α → α → α} (hp : ∀ a b, pick' a b = a ∨ pick' a b = b) {xs : List α}
    (h : xs.Pairwise fun a b => cmp b a ≠ .eq) : collectBy cmp pick xs = collectBy cmp pick' xs := by
  induction xs using List.reverseRecOn with
  | nil => rfl
  | append_singleton xs x ih =>
    obtain ⟨hxs, -, hx⟩ := List.pairwise_append.mp h
    rw [collectBy_append_singleton, collectBy_append_singleton, ih hxs]
    exact insertBy_pick fun y hy => hx y (mem_collectBy hp hy) x (by simp)

theorem Ascending.distinct [Std.TransCmp cmp] {xs : List α} (h : Ascending cmp xs) :
    xs.Pairwise fun a b => cmp b a ≠ .eq :=
  h.imp fun {a b} hab he => by
    rw [Std.OrientedCmp.eq_symm he] at hab
    exact absurd hab (by decide)

/-- An ascending list is collected again from its elements in any order. -/
theorem collectBy_of_perm [Std.TransCmp cmp] (hp : ∀ a b, pick a b = a ∨ pick a b = b) {xs ys : List α}
    (h : xs.Perm ys) (hys : Ascending cmp ys) : collectBy cmp pick xs = ys := by
  have hsymm : ∀ {a b : α}, cmp b a ≠ .eq → cmp a b ≠ .eq := fun hba he =>
    hba (Std.OrientedCmp.eq_symm he)
  have hperm : (collectBy cmp pick xs).Perm ys :=
    (collectBy_perm hp (h.symm.pairwise hys.distinct hsymm)).trans h
  refine List.Perm.eq_of_pairwise (fun a b _ _ hab hba => ?_) (collectBy_ascending hp xs) hys hperm
  exact absurd (hab.symm.trans (Std.OrientedCmp.gt_of_lt hba)) (by decide)

/-- Of equal elements an ascending list has one. -/
theorem Ascending.eq_of_cmp [Std.TransCmp cmp] {xs : List α} (h : Ascending cmp xs) {x y : α}
    (hx : x ∈ xs) (hy : y ∈ xs)
    (he : cmp x y = .eq) : x = y := by
  induction xs with
  | nil => simp at hx
  | cons a xs ih =>
    obtain ⟨ha, hxs⟩ := List.pairwise_cons.mp h
    rcases List.mem_cons.mp hx with rfl | hx'
    · rcases List.mem_cons.mp hy with rfl | hy'
      · rfl
      · exact absurd ((ha y hy').symm.trans he) (by decide)
    · rcases List.mem_cons.mp hy with rfl | hy'
      · exact absurd ((ha x hx').symm.trans (Std.OrientedCmp.eq_symm he)) (by decide)
      · exact ih hxs hx' hy'

/-- Looking an element up gives the one that was collected last. -/
theorem find?_collectBy_keepNew [Std.TransCmp cmp] {p : α → Bool}
    (hp : ∀ a b, p a → (p b ↔ cmp a b = .eq)) (xs : List α) :
    (collectBy cmp keepNew xs).find? p = xs.reverse.find? p := by
  cases h : xs.reverse.find? p with
  | none =>
    rw [List.find?_eq_none] at h ⊢
    exact fun z hz => h z (List.mem_reverse.mpr (mem_collectBy keepNew_picks hz))
  | some z =>
    obtain ⟨hz, before, after, hxs, hbefore⟩ := List.find?_eq_some_iff_append.mp h
    have hmem : z ∈ collectBy cmp keepNew xs := by
      refine mem_collectBy_keepNew.mpr ⟨after.reverse, before.reverse, ?_, fun y hy he => ?_⟩
      · rw [← List.reverse_reverse xs, hxs]
        simp
      · have := hbefore y (List.mem_reverse.mp hy)
        simp [(hp z y hz).mpr he] at this
    obtain ⟨z', hz'⟩ := Option.isSome_iff_exists.mp (List.find?_isSome.mpr ⟨z, hmem, hz⟩)
    have heq : cmp z z' = .eq := (hp z z' hz).mp (List.find?_some hz')
    rw [hz', (collectBy_ascending keepNew_picks xs).eq_of_cmp hmem (List.mem_of_find?_eq_some hz') heq]

end

section
variable {cmp : α → α → Ordering} {cmp' : β → β → Ordering} {pick : α → α → α}
  {pick' : β → β → β}
  {R : α → β → Prop}

theorem insertBy_congr (hcmp : ∀ a a' b b', R a b → R a' b' → cmp a a' = cmp' b b')
    (hpick : ∀ a a' b b', R a b → R a' b' → R (pick a a') (pick' b b')) {x : α} {y : β} {xs : List α}
    {ys : List β} (hxy : R x y) (h : List.Forall₂ R xs ys) :
    List.Forall₂ R (insertBy cmp pick x xs) (insertBy cmp' pick' y ys) := by
  induction h with
  | nil => exact .cons hxy .nil
  | @cons a b as bs hab habs ih =>
    simp only [insertBy, ← hcmp _ _ _ _ hxy hab]
    cases cmp x a with
    | lt => exact .cons hxy (.cons hab habs)
    | eq => exact .cons (hpick _ _ _ _ hab hxy) habs
    | gt => exact .cons hab ih

/-- Lists whose elements compare alike are collected alike. -/
theorem collectBy_congr (hcmp : ∀ a a' b b', R a b → R a' b' → cmp a a' = cmp' b b')
    (hpick : ∀ a a' b b', R a b → R a' b' → R (pick a a') (pick' b b')) {xs : List α} {ys : List β}
    (h : List.Forall₂ R xs ys) : List.Forall₂ R (collectBy cmp pick xs) (collectBy cmp' pick' ys) :=
  have hstep : Relator.LiftFun (List.Forall₂ R) (Relator.LiftFun R (List.Forall₂ R))
      (fun acc x => insertBy cmp pick x acc) (fun acc y => insertBy cmp' pick' y acc) :=
    fun _ _ hacc _ _ hxy => insertBy_congr hcmp hpick hxy hacc
  List.rel_foldl hstep .nil h

theorem pairwise_of_forall₂ {S : α → α → Prop} {T : β → β → Prop}
    (hST : ∀ a a' b b', R a b → R a' b' → S a a' → T b b') {xs : List α} {ys : List β}
    (h : List.Forall₂ R xs ys) (hxs : xs.Pairwise S) : ys.Pairwise T := by
  obtain ⟨hlen, hget⟩ := List.forall₂_iff_get.mp h
  refine List.pairwise_iff_get.mpr fun i j hij => ?_
  have hi : i.val < xs.length := by omega
  have hj : j.val < xs.length := by omega
  exact hST _ _ _ _ (hget i hi i.isLt) (hget j hj j.isLt)
    (List.pairwise_iff_get.mp hxs ⟨i, hi⟩ ⟨j, hj⟩ hij)

/-- Sort the second components of corresponding elements, all different, by an order of their
own. The first components go along, and are collected as they were. -/
theorem exists_collectBy_related [Std.TransCmp cmp] (hp : ∀ a b, pick a b = a ∨ pick a b = b)
    (hp' : ∀ a b, pick' a b = a ∨ pick' a b = b)
    (hne : ∀ a a' b b', R a b → R a' b' → cmp a' a ≠ .eq → cmp' b' b ≠ .eq)
    {xs : List α} {ys : List β}
    (h : List.Forall₂ R xs ys) (hxs : xs.Pairwise fun a b => cmp b a ≠ .eq) :
    ∃ us, List.Forall₂ R us (collectBy cmp' pick' ys) ∧ us.Perm xs ∧
      collectBy cmp pick us = collectBy cmp pick xs := by
  have hperm : (collectBy cmp' pick' ys).Perm ys := collectBy_perm hp' (pairwise_of_forall₂ hne h hxs)
  obtain ⟨us, hus, hperm⟩ := List.perm_comp_forall₂ hperm h.flip
  refine ⟨us, hus.flip, hperm, ?_⟩
  exact collectBy_of_perm hp (hperm.trans (collectBy_perm hp hxs).symm) (collectBy_ascending hp xs)

end

end Base
