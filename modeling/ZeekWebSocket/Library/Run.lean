import Mathlib

/-! Runs of a machine that takes one labelled step at a time, where a label that is not enabled
has no step, and of a machine that emits a list for everything it reads. -/

namespace Base

variable {σ α : Type}

/-- The labels of a run from `init` and the state after them. -/
inductive Run (step : σ → α → Option σ) (init : σ) : List α → σ → Prop
  | nil : Run step init [] init
  | snoc {as a s s'} : Run step init as s → step s a = some s' → Run step init (as ++ [a]) s'

namespace Run

variable {step : σ → α → Option σ} {init s s' : σ} {as bs : List α}

/-- What holds at first and is kept by every step holds of every state that is reached. -/
theorem invariant {I : σ → Prop} (hinit : I init) (hstep : ∀ s a s', I s → step s a = some s' → I s')
    (h : Run step init as s) : I s := by
  induction h with
  | nil => exact hinit
  | snoc _ hs ih => exact hstep _ _ _ ih hs

/-- The same for what also speaks of the labels so far. -/
theorem invariant_labels {I : List α → σ → Prop} (hinit : I [] init)
    (hstep : ∀ as s a s', I as s → step s a = some s' → I (as ++ [a]) s') (h : Run step init as s) :
    I as s := by
  induction h with
  | nil => exact hinit
  | snoc _ hs ih => exact hstep _ _ _ _ ih hs

theorem append (h : Run step init as s) (h' : Run step s bs s') : Run step init (as ++ bs) s' := by
  induction h' with
  | nil => simpa using h
  | snoc _ hs ih =>
    rw [← List.append_assoc]
    exact .snoc ih hs

theorem single {a : α} (h : step s a = some s') : Run step s [a] s' := .snoc .nil h

theorem cons {a : α} (h : step init a = some s) (h' : Run step s as s') :
    Run step init (a :: as) s' :=
  (single h).append h'

theorem of_snoc {a : α} (h : Run step init (as ++ [a]) s) :
    ∃ s', Run step init as s' ∧ step s' a = some s := by
  generalize hb : as ++ [a] = bs at h
  cases h with
  | nil => simp at hb
  | snoc h hs =>
    obtain ⟨rfl, hab⟩ := List.append_inj' hb rfl
    obtain rfl := List.singleton_inj.mp hab
    exact ⟨_, h, hs⟩

/-- Labels that can be taken one after the other are a run. -/
theorem of_foldlM (h : as.foldlM step init = some s) : Run step init as s := by
  induction as generalizing init with
  | nil =>
    obtain rfl : init = s := by simpa using h
    exact .nil
  | cons a as ih =>
    obtain ⟨s', h1, h2⟩ : ∃ s', step init a = some s' ∧ as.foldlM step s' = some s := by
      simpa [Option.bind_eq_some_iff] using h
    exact cons h1 (ih h2)

end Run

section
variable {β : Type} {read : σ → α → σ × List β}

/-- Read a list from the left. -/
def feed (read : σ → α → σ × List β) (s : σ) : List α → σ × List β
  | [] => (s, [])
  | a :: as => ((feed read (read s a).1 as).1, (read s a).2 ++ (feed read (read s a).1 as).2)

theorem feed_append (s : σ) (as bs : List α) :
    feed read s (as ++ bs) =
      ((feed read (feed read s as).1 bs).1, (feed read s as).2 ++ (feed read (feed read s as).1 bs).2) := by
  induction as generalizing s with
  | nil => simp [feed]
  | cons a as ih => simp [feed, ih]

theorem feed_snoc {s t t' : σ} {as : List α} {a : α} {out out' : List β}
    (h : feed read s as = (t, out)) (h' : read t a = (t', out')) :
    feed read s (as ++ [a]) = (t', out ++ out') := by
  simp [feed_append, feed, h, h']

/-- Who has read less has written less. -/
theorem feed_mono (s : σ) {as bs : List α} (h : as <+: bs) :
    (feed read s as).2 <+: (feed read s bs).2 := by
  obtain ⟨cs, rfl⟩ := h
  rw [feed_append]
  exact List.prefix_append _ _

/-- What every reading keeps holds after the last one. -/
theorem feed_invariant {I : σ → Prop} (hread : ∀ s a, I s → I (read s a).1) (as : List α) {s : σ}
    (hs : I s) : I (feed read s as).1 := by
  induction as generalizing s with
  | nil => exact hs
  | cons a as ih => exact ih (hread s a hs)

end

end Base
