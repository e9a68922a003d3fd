import Mathlib

/-! Results of calls that return a value, return an error or panic, with the
rules that take a sequence of such calls apart. -/

namespace Base

/-- How a call ends. A panic unwinds past every `?` on its way. -/
inductive Outcome (ε α : Type) where
  | ok (a : α)
  | err (e : ε)
  | panic
  deriving DecidableEq, Repr

namespace Outcome

variable {ε ε' α β γ : Type}

def bind (x : Outcome ε α) (f : α → Outcome ε β) : Outcome ε β :=
  match x with
  | .ok a => f a
  | .err e => .err e
  | .panic => .panic

instance : Monad (Outcome ε) where
  pure := .ok
  bind := bind

/-- `Option::ok_or`. -/
def ofOption (e : ε) : Option α → Outcome ε α
  | some a => .ok a
  | none => .err e

/-- A computation that never panics. -/
def ofExcept : Except ε α → Outcome ε α
  | .ok a => .ok a
  | .error e => .err e

/-- `Option::expect`: an absent value is a panic. -/
def expect : Option α → Outcome ε α
  | some a => .ok a
  | none => .panic

/-- `Result::map_err`. -/
def mapErr (f : ε → ε') : Outcome ε α → Outcome ε' α
  | .ok a => .ok a
  | .err e => .err (f e)
  | .panic => .panic

@[simp] theorem pure_def (a : α) : (pure a : Outcome ε α) = .ok a := rfl

@[simp] theorem ok_bind (a : α) (f : α → Outcome ε β) : (Outcome.ok a >>= f) = f a := rfl

@[simp] theorem err_bind (e : ε) (f : α → Outcome ε β) : (Outcome.err e >>= f) = .err e := rfl

@[simp] theorem panic_bind (f : α → Outcome ε β) : (Outcome.panic >>= f) = .panic := rfl

instance : LawfulMonad (Outcome ε) :=
  LawfulMonad.mk' (Outcome ε) (fun x => by cases x <;> rfl) (fun _ _ => rfl)
    (fun x _ _ => by cases x <;> rfl)

theorem bind_eq_ok {x : Outcome ε α} {f : α → Outcome ε β} {b : β} :
    (x >>= f) = .ok b ↔ ∃ a, x = .ok a ∧ f a = .ok b := by
  cases x <;> simp

theorem bind_eq_panic {x : Outcome ε α} {f : α → Outcome ε β} :
    (x >>= f) = .panic ↔ x = .panic ∨ ∃ a, x = .ok a ∧ f a = .panic := by
  cases x <;> simp

/-- Two calls for a pair. -/
theorem pair_eq_ok {x : Outcome ε α} {y : Outcome ε β} {p : α × β} :
    (x >>= fun a => y >>= fun b => pure (a, b)) = .ok p ↔ x = .ok p.1 ∧ y = .ok p.2 := by
  cases x <;> cases y <;> simp [Prod.ext_iff]

/-- Wrapping what a call returns does not change if it returns. -/
theorem exists_bind_ok {x : Outcome ε α} {f : α → β} :
    (∃ b, (x >>= fun a => .ok (f a)) = .ok b) ↔ ∃ a, x = .ok a := by
  cases x <;> simp

@[simp] theorem ofOption_eq_ok {e : ε} {x : Option α} {a : α} :
    ofOption e x = .ok a ↔ x = some a := by
  cases x <;> simp [ofOption]

@[simp] theorem ofOption_ne_panic {e : ε} {x : Option α} : ofOption e x ≠ .panic := by
  cases x <;> simp [ofOption]

@[simp] theorem ofExcept_eq_ok {x : Except ε α} {a : α} : ofExcept x = .ok a ↔ x = .ok a := by
  cases x <;> simp [ofExcept]

@[simp] theorem ofExcept_ne_panic {x : Except ε α} : ofExcept x ≠ .panic := by
  cases x <;> simp [ofExcept]

@[simp] theorem expect_eq_ok {x : Option α} {a : α} :
    (expect x : Outcome ε α) = .ok a ↔ x = some a := by
  cases x <;> simp [expect]

@[simp] theorem expect_ne_err {x : Option α} {e : ε} : (expect x : Outcome ε α) ≠ .err e := by
  cases x <;> simp [expect]

@[simp] theorem expect_eq_panic {x : Option α} :
    (expect x : Outcome ε α) = .panic ↔ x = none := by
  cases x <;> simp [expect]

@[simp] theorem mapErr_eq_panic {f : ε → ε'} {x : Outcome ε α} :
    x.mapErr f = .panic ↔ x = .panic := by
  cases x <;> simp [mapErr]

theorem mapErr_eq_ok {f : ε → ε'} {x : Outcome ε α} {a : α} : x.mapErr f = .ok a ↔ x = .ok a := by
  cases x <;> simp [mapErr]

end Outcome

section
variable {α β : Type} {R S : α → β → Prop}

theorem forall₂_of_mem {xs : List α} {ys : List β}
    (h : List.Forall₂ R xs ys) (himp : ∀ x ∈ xs, ∀ y, R x y → S x y) : List.Forall₂ S xs ys :=
  ((List.forall₂_and_left xs ys).mpr ⟨himp, h⟩).imp fun _ y hxy => hxy.1 y hxy.2

theorem exists_of_forall₂ {xs : List α} {ys : List β} (h : List.Forall₂ R xs ys)
    (h' : List.Forall₂ S xs ys) {x : α} (hx : x ∈ xs) : ∃ y, R x y ∧ S x y := by
  induction h with
  | nil => simp at hx
  | cons hxy _ ih =>
    obtain ⟨hxy', hrest⟩ := List.forall₂_cons.mp h'
    rcases List.mem_cons.mp hx with rfl | hx
    · exact ⟨_, hxy, hxy'⟩
    · exact ih hrest hx

theorem exists_forall₂ {ys : List β} (h : ∀ y ∈ ys, ∃ x, R x y) :
    ∃ xs, List.Forall₂ R xs ys := by
  induction ys with
  | nil => exact ⟨[], .nil⟩
  | cons y ys ih =>
    obtain ⟨⟨x, hx⟩, hys⟩ := List.forall_mem_cons.mp h
    obtain ⟨xs, hxs⟩ := ih hys
    exact ⟨x :: xs, .cons hx hxs⟩

end

section
variable {α β : Type} {ok bad : α → Prop}

/-- Going through a list, one comes to a bad element past none that is not ok. -/
def ComesTo (ok bad : α → Prop) (xs : List α) : Prop :=
  ∃ pre x post, xs = pre ++ x :: post ∧ (∀ a ∈ pre, ok a) ∧ bad x

@[simp] theorem comesTo_nil : ¬ ComesTo ok bad [] := by simp [ComesTo]

theorem comesTo_cons {x : α} {xs : List α} :
    ComesTo ok bad (x :: xs) ↔ bad x ∨ ok x ∧ ComesTo ok bad xs := by
  refine ⟨?_, ?_⟩
  · intro h
    obtain ⟨pre, y, post, heq, hpre, hy⟩ := h
    cases pre with
    | nil =>
      obtain ⟨rfl, -⟩ := List.cons.inj heq
      exact .inl hy
    | cons a pre =>
      obtain ⟨rfl, rfl⟩ := List.cons.inj heq
      obtain ⟨hx, hpre⟩ := List.forall_mem_cons.mp hpre
      exact .inr ⟨hx, pre, y, post, rfl, hpre, hy⟩
  · rintro (hx | ⟨hx, pre, y, post, rfl, hpre, hy⟩)
    · exact ⟨[], x, xs, rfl, by simp, hx⟩
    · exact ⟨x :: pre, y, post, rfl, List.forall_mem_cons.mpr ⟨hx, hpre⟩, hy⟩

theorem comesTo_singleton {x : α} : ComesTo ok bad [x] ↔ bad x := by simp [comesTo_cons]

theorem comesTo_append {xs ys : List α} : ComesTo ok bad (xs ++ ys) ↔
    ComesTo ok bad xs ∨ (∀ x ∈ xs, ok x) ∧ ComesTo ok bad ys := by
  induction xs with
  | nil => simp
  | cons x xs ih =>
    rw [List.cons_append, comesTo_cons, comesTo_cons, ih, List.forall_mem_cons]
    tauto

theorem comesTo_flatMap {f : β → List α} {xs : List β} : ComesTo ok bad (xs.flatMap f) ↔
    ComesTo (fun x => ∀ a ∈ f x, ok a) (fun x => ComesTo ok bad (f x)) xs := by
  induction xs with
  | nil => simp
  | cons x xs ih => rw [List.flatMap_cons, comesTo_append, comesTo_cons, ih]

theorem comesTo_congr {ok' bad' : α → Prop} {xs : List α} (hok : ∀ x ∈ xs, ok x ↔ ok' x)
    (hbad : ∀ x ∈ xs, bad x ↔ bad' x) : ComesTo ok bad xs ↔ ComesTo ok' bad' xs := by
  induction xs with
  | nil => simp
  | cons x xs ih =>
    obtain ⟨hx, hxs⟩ := List.forall_mem_cons.mp hok
    obtain ⟨hx', hxs'⟩ := List.forall_mem_cons.mp hbad
    rw [comesTo_cons, comesTo_cons, hx, hx', ih hxs hxs']

end

namespace Outcome

variable {ε ε' α β γ : Type}

/-! A traversal stops at the first element that does not return a value. -/

theorem mapM_eq_ok {f : α → Outcome ε β} {xs : List α} {ys : List β} :
    xs.mapM f = .ok ys ↔ List.Forall₂ (fun x y => f x = .ok y) xs ys := by
  induction xs generalizing ys with
  | nil => simp [eq_comm]
  | cons x xs ih =>
    simp only [List.mapM_cons, bind_eq_ok, ih, pure_def, Outcome.ok.injEq, List.forall₂_cons_left_iff]
    refine ⟨?_, ?_⟩
    · intro h
      obtain ⟨y, hy, zs, hzs, rfl⟩ := h
      exact ⟨y, zs, hy, hzs, rfl⟩
    · intro h
      obtain ⟨y, zs, hy, hzs, rfl⟩ := h
      exact ⟨y, hy, zs, hzs, rfl⟩

theorem mapM_congr {f g : α → Outcome ε β} {xs : List α} (h : ∀ x ∈ xs, f x = g x) :
    xs.mapM f = xs.mapM g := by
  induction xs with
  | nil => rfl
  | cons x xs ih =>
    obtain ⟨hx, hxs⟩ := List.forall_mem_cons.mp h
    rw [List.mapM_cons, List.mapM_cons, hx, ih hxs]

/-- Every result of a traversal comes from an element. -/
theorem mem_of_mapM {f : α → Outcome ε β} {xs : List α} {ys : List β} (h : xs.mapM f = .ok ys) {y : β}
    (hy : y ∈ ys) : ∃ x ∈ xs, f x = .ok y := by
  induction xs generalizing ys with
  | nil =>
    obtain rfl := Outcome.ok.inj h
    simp at hy
  | cons x xs ih =>
    obtain ⟨z, zs, hz, hzs, rfl⟩ := List.forall₂_cons_left_iff.mp (mapM_eq_ok.mp h)
    rcases List.mem_cons.mp hy with rfl | hy
    · exact ⟨x, by simp, hz⟩
    · obtain ⟨x', hx', hxy⟩ := ih (mapM_eq_ok.mpr hzs) hy
      exact ⟨x', by simp [hx'], hxy⟩

/-- Every element of a traversal has its result among them. -/
theorem exists_result {f : α → Outcome ε β} {xs : List α} {ys : List β} (h : xs.mapM f = .ok ys)
    {x : α} (hx : x ∈ xs) : ∃ y ∈ ys, f x = .ok y := by
  induction mapM_eq_ok.mp h with
  | nil => simp at hx
  | @cons x' y xs ys hxy hrest ih =>
    rcases List.mem_cons.mp hx with rfl | hx
    · exact ⟨y, by simp, hxy⟩
    · obtain ⟨z, hz, hxz⟩ := ih (mapM_eq_ok.mpr hrest) hx
      exact ⟨z, by simp [hz], hxz⟩

theorem mapM_eq_panic {f : α → Outcome ε β} {xs : List α} :
    xs.mapM f = .panic ↔ ComesTo (fun x => ∃ b, f x = .ok b) (fun x => f x = .panic) xs := by
  induction xs with
  | nil => simp
  | cons x xs ih =>
    rw [comesTo_cons, ← ih]
    simp only [List.mapM_cons, bind_eq_panic, pure_def, reduceCtorEq, and_false, exists_false, or_false,
      exists_and_right]

theorem mapM_ne_panic {f : α → Outcome ε β} {xs : List α} (h : ∀ x ∈ xs, f x ≠ .panic) :
    xs.mapM f ≠ .panic := by
  rw [Ne, mapM_eq_panic]
  intro hsome
  obtain ⟨pre, x, post, rfl, -, hx⟩ := hsome
  exact h x (by simp) hx

theorem exists_mapM_ok {f : α → Outcome ε β} {xs : List α} :
    (∃ ys, xs.mapM f = .ok ys) ↔ ∀ x ∈ xs, ∃ y, f x = .ok y := by
  induction xs with
  | nil => simp
  | cons x xs ih =>
    rw [List.forall_mem_cons, ← ih]
    simp only [List.mapM_cons, bind_eq_ok, pure_def, Outcome.ok.injEq]
    refine ⟨?_, ?_⟩
    · intro h
      obtain ⟨_, y, hy, ys, hys, -⟩ := h
      exact ⟨⟨y, hy⟩, ys, hys⟩
    · intro h
      obtain ⟨⟨y, hy⟩, ys, hys⟩ := h
      exact ⟨_, y, hy, ys, hys, rfl⟩

/-- What comes through two traversals comes through each of their steps. -/
theorem mapM_through {f : α → Outcome ε β} {g : β → Outcome ε' γ} {xs : List α} {ys : List β}
    {zs : List γ} (hf : xs.mapM f = .ok ys) (hg : ys.mapM g = .ok zs) :
    ∀ x ∈ xs, ∃ y z, f x = .ok y ∧ g y = .ok z := by
  induction xs generalizing ys zs with
  | nil => simp
  | cons x xs ih =>
    obtain ⟨y, ys', hy, hys, rfl⟩ := List.forall₂_cons_left_iff.mp (mapM_eq_ok.mp hf)
    obtain ⟨z, zs', hz, hzs, rfl⟩ := List.forall₂_cons_left_iff.mp (mapM_eq_ok.mp hg)
    exact List.forall_mem_cons.mpr ⟨⟨y, z, hy, hz⟩, ih (mapM_eq_ok.mpr hys) (mapM_eq_ok.mpr hzs)⟩

/-- Where two functions take elements to related ones, they take lists to related ones. -/
theorem mapM_related {ι κ : Type} {f : α → Outcome ε β} {g : ι → Outcome ε κ}
    {R : β → κ → Prop} {xs : List α} {ys : List ι} {vs : List β}
    (h : List.Forall₂ (fun x y => ∀ v, f x = .ok v → ∃ w, g y = .ok w ∧ R v w) xs ys)
    (hvs : xs.mapM f = .ok vs) : ∃ ws, ys.mapM g = .ok ws ∧ List.Forall₂ R vs ws := by
  induction h generalizing vs with
  | nil =>
    obtain rfl := Outcome.ok.inj hvs
    exact ⟨[], rfl, .nil⟩
  | cons hxy _ ih =>
    obtain ⟨v, vs, hv, hrest, rfl⟩ := List.forall₂_cons_left_iff.mp (mapM_eq_ok.mp hvs)
    obtain ⟨w, hw, hvw⟩ := hxy v hv
    obtain ⟨ws, hws, hrel⟩ := ih (mapM_eq_ok.mpr hrest)
    exact ⟨w :: ws, by simp [List.mapM_cons, hw, hws], .cons hvw hrel⟩

/-- A traversal is undone by another if each of its steps is. -/
theorem mapM_round_trip {ι : Type} {f : α → Outcome ε β} {g : ι → β → Outcome ε' γ}
    {h : α → γ}
    {xs : List α} (hx : ∀ x ∈ xs, ∃ y, f x = .ok y ∧ ∀ i, g i y = .ok (h x)) :
    ∃ ys, xs.mapM f = .ok ys ∧ ∀ i, ys.mapM (g i) = .ok (xs.map h) := by
  induction xs with
  | nil => exact ⟨[], rfl, fun _ => rfl⟩
  | cons x xs ih =>
    obtain ⟨⟨y, hy, hg⟩, hxs⟩ := List.forall_mem_cons.mp hx
    obtain ⟨ys, hys, hgs⟩ := ih hxs
    refine ⟨y :: ys, ?_, fun i => ?_⟩
    · simp [List.mapM_cons, hy, hys]
    · simp [List.mapM_cons, hg i, hgs i]

/-! Ordered choice: an error hands over to the next attempt, and what returns or panics ends
the choice. -/

def firstOk (last : Outcome ε α) : List (Outcome ε α) → Outcome ε α
  | [] => last
  | .err _ :: xs => firstOk last xs
  | x :: _ => x

/-- The attempt ends in an error. -/
def Fails (x : Outcome ε α) : Prop := ∃ e, x = .err e

@[simp] theorem fails_err (e : ε) : (Outcome.err e : Outcome ε α).Fails := ⟨e, rfl⟩

@[simp] theorem not_fails_ok (a : α) : ¬ (Outcome.ok a : Outcome ε α).Fails := by simp [Fails]

theorem firstOk_skip {last : Outcome ε α} {xs ys : List (Outcome ε α)} (h : ∀ x ∈ xs, x.Fails) :
    firstOk last (xs ++ ys) = firstOk last ys := by
  induction xs with
  | nil => rfl
  | cons x xs ih =>
    obtain ⟨⟨e, rfl⟩, hxs⟩ := List.forall_mem_cons.mp h
    exact ih hxs

/-- Nothing is tried after an attempt that does not fail. -/
theorem firstOk_taken {last : Outcome ε α} {xs ys : List (Outcome ε α)}
    (h : ¬ ∀ x ∈ xs, x.Fails) : firstOk last (xs ++ ys) = firstOk last xs := by
  induction xs with
  | nil => simp at h
  | cons x xs ih =>
    cases x with
    | err e =>
      apply ih
      intro hall
      exact h (List.forall_mem_cons.mpr ⟨fails_err e, hall⟩)
    | ok a => rfl
    | panic => rfl

theorem firstOk_cons_ok (last : Outcome ε α) (a : α) (xs : List (Outcome ε α)) :
    firstOk last (.ok a :: xs) = .ok a := rfl

theorem firstOk_cons_err (last : Outcome ε α) (e : ε) (xs : List (Outcome ε α)) :
    firstOk last (.err e :: xs) = firstOk last xs := rfl

/-- What a choice returns is returned by an attempt before which all others fail. -/
theorem firstOk_eq_ok {last : Outcome ε α} {xs : List (Outcome ε α)} {a : α}
    (h : firstOk last xs = .ok a) : last = .ok a ∨ .ok a ∈ xs := by
  induction xs with
  | nil => exact .inl h
  | cons x xs ih =>
    cases x with
    | ok b =>
      obtain rfl := Outcome.ok.inj h
      simp
    | err e =>
      rcases ih h with h | h
      · exact .inl h
      · exact .inr (List.mem_cons_of_mem _ h)
    | panic => exact absurd h (by simp [firstOk])

/-! A recursion that may run out of stack panics or goes as far as with more of it. -/

def Below (x y : Outcome ε α) : Prop := x = .panic ∨ x = y

@[simp] theorem Below.refl (x : Outcome ε α) : Below x x := .inr rfl

@[simp] theorem Below.panic (x : Outcome ε α) : Below .panic x := .inl rfl

theorem Below.trans {x y z : Outcome ε α} (hxy : Below x y) (hyz : Below y z) : Below x z := by
  rcases hxy with rfl | rfl
  · exact .panic z
  · exact hyz

theorem Below.ok {a : α} {y : Outcome ε α} (h : Below (.ok a) y) : y = .ok a := by
  rcases h with h | h
  · exact absurd h (by simp)
  · exact h.symm

theorem Below.fails {x y : Outcome ε α} (h : Below x y) (hx : x.Fails) : y.Fails := by
  obtain ⟨e, rfl⟩ := hx
  rcases h with h | h
  · exact absurd h (by simp)
  · exact ⟨e, h.symm⟩

theorem Below.bind {x y : Outcome ε α} {f g : α → Outcome ε β} (h : Below x y)
    (hfg : ∀ a, Below (f a) (g a)) : Below (x >>= f) (y >>= g) := by
  rcases h with rfl | rfl
  · exact .panic _
  · cases x with
    | ok a => exact hfg a
    | err e => exact .refl _
    | panic => exact .refl _

theorem Below.mapM {f g : α → Outcome ε β} (h : ∀ a, Below (f a) (g a)) (xs : List α) :
    Below (xs.mapM f) (xs.mapM g) := by
  induction xs with
  | nil => exact .refl _
  | cons x xs ih =>
    rw [List.mapM_cons, List.mapM_cons]
    exact (h x).bind fun _ => ih.bind fun _ => .refl _

theorem Below.all_fail {xs ys : List (Outcome ε α)} (h : List.Forall₂ Below xs ys)
    (hx : ∀ x ∈ xs, x.Fails) : ∀ y ∈ ys, y.Fails := by
  induction h with
  | nil => exact hx
  | cons hxy _ ih =>
    obtain ⟨hx, hxs⟩ := List.forall_mem_cons.mp hx
    exact List.forall_mem_cons.mpr ⟨hxy.fails hx, ih hxs⟩

theorem Below.firstOk {last : Outcome ε α} {xs ys : List (Outcome ε α)} (h : List.Forall₂ Below xs ys) :
    Below (firstOk last xs) (firstOk last ys) := by
  induction h with
  | nil => exact .refl _
  | @cons x y xs ys hxy _ ih =>
    rcases hxy with rfl | rfl
    · exact .panic _
    · cases x with
      | ok a => exact .refl _
      | err e => exact ih
      | panic => exact .refl _

/-! Two calls agree if they return the same, whatever they report otherwise. -/

def Agree (x y : Outcome ε α) : Prop := ∀ a, x = .ok a ↔ y = .ok a

@[simp] theorem Agree.refl (x : Outcome ε α) : Agree x x := fun _ => Iff.rfl

theorem Agree.bind {x y : Outcome ε α} {f g : α → Outcome ε β} (h : Agree x y)
    (hfg : ∀ a, Agree (f a) (g a)) : Agree (x >>= f) (y >>= g) := by
  intro b
  rw [bind_eq_ok, bind_eq_ok]
  exact exists_congr fun a => and_congr (h a) (hfg a b)

theorem mapM_ok_of_forall₂ {ι : Type} {f : α → Outcome ε β} {g : ι → Outcome ε β} {xs : List α}
    {ys : List ι} {vs : List β} (h : List.Forall₂ (fun x y => ∀ v, f x = .ok v → g y = .ok v) xs ys)
    (hvs : xs.mapM f = .ok vs) : ys.mapM g = .ok vs := by
  obtain ⟨ws, hws, hrel⟩ := mapM_related (R := Eq) (h.imp fun x y hxy v hv => ⟨v, hxy v hv, rfl⟩) hvs
  rw [List.forall₂_eq_eq_eq] at hrel
  rwa [hrel]

theorem Agree.mapM {ι : Type} {f : α → Outcome ε β} {g : ι → Outcome ε β} {xs : List α}
    {ys : List ι}
    (h : List.Forall₂ (fun x y => Agree (f x) (g y)) xs ys) : Agree (xs.mapM f) (ys.mapM g) :=
  fun _ => ⟨mapM_ok_of_forall₂ (h.imp fun _ _ hxy v => (hxy v).mp),
    mapM_ok_of_forall₂ (h.flip.imp fun _ _ hxy v => (hxy v).mpr)⟩

theorem Agree.symm {x y : Outcome ε α} (h : Agree x y) : Agree y x := fun a => (h a).symm

theorem Agree.trans {x y z : Outcome ε α} (h : Agree x y) (h' : Agree y z) : Agree x z :=
  fun a => (h a).trans (h' a)

/-- Traversals of lists whose elements agree with one another return the same results, in some
order and number. -/
theorem mapM_members {ι : Type} {f : α → Outcome ε β} {g : ι → Outcome ε β} {xs : List α}
    {ys : List ι}
    (hx : ∀ x ∈ xs, ∃ y ∈ ys, Agree (f x) (g y)) (hy : ∀ y ∈ ys, ∃ x ∈ xs, Agree (f x) (g y))
    {vs : List β} (hvs : xs.mapM f = .ok vs) :
    ∃ ws, ys.mapM g = .ok ws ∧ ∀ v, v ∈ vs ↔ v ∈ ws := by
  have hfound := mapM_eq_ok.mp hvs
  have hall : ∀ y ∈ ys, ∃ v, g y = .ok v := by
    intro y hmem
    obtain ⟨x, hxs, hagree⟩ := hy y hmem
    obtain ⟨v, hv⟩ := exists_mapM_ok.mp ⟨vs, hvs⟩ x hxs
    exact ⟨v, (hagree v).mp hv⟩
  obtain ⟨ws, hws⟩ := exists_mapM_ok.mpr hall
  refine ⟨ws, hws, fun v => ⟨fun hv => ?_, fun hv => ?_⟩⟩
  · obtain ⟨x, hxs, hxv⟩ := mem_of_mapM hvs hv
    obtain ⟨y, hys, hagree⟩ := hx x hxs
    obtain ⟨w, hw, hyw⟩ := exists_result hws hys
    obtain rfl := Outcome.ok.inj (((hagree v).mp hxv).symm.trans hyw)
    exact hw
  · obtain ⟨y, hys, hyv⟩ := mem_of_mapM hws hv
    obtain ⟨x, hxs, hagree⟩ := hy y hys
    obtain ⟨w, hw, hxw⟩ := exists_result hvs hxs
    obtain rfl := Outcome.ok.inj (((hagree w).mp hxw).symm.trans hyv)
    exact hw

theorem Agree.foldlM {ι : Type} {f : β → α → Outcome ε β} {g : β → ι → Outcome ε β}
    {xs : List α}
    {ys : List ι} (h : List.Forall₂ (fun x y => ∀ b, Agree (f b x) (g b y)) xs ys) (b : β) :
    Agree (xs.foldlM f b) (ys.foldlM g b) := by
  induction h generalizing b with
  | nil => exact .refl _
  | cons hxy _ ih => exact (hxy b).bind ih

end Outcome

end Base
