import Mathlib

/-! First-in first-out queues over whole histories: what was taken out, followed by what is
left, is what was there and what was put in. -/

namespace Base

/-- An operation on a queue with its result. -/
inductive QueueOp (α : Type) where
  | push (a : α)
  | pop (r : Option α)

namespace QueueOp

variable {α : Type}

def pushed : List (QueueOp α) → List α
  | [] => []
  | .push a :: ops => a :: pushed ops
  | .pop _ :: ops => pushed ops

def popped : List (QueueOp α) → List α
  | [] => []
  | .push _ :: ops => popped ops
  | .pop r :: ops => r.toList ++ popped ops

theorem pushed_append (ops ops' : List (QueueOp α)) : pushed (ops ++ ops') = pushed ops ++ pushed ops' := by
  induction ops with
  | nil => rfl
  | cons op ops ih => cases op <;> simp [pushed, ih]

theorem popped_append (ops ops' : List (QueueOp α)) : popped (ops ++ ops') = popped ops ++ popped ops' := by
  induction ops with
  | nil => rfl
  | cons op ops ih => cases op <;> simp [popped, ih]

/-- Take these out, one after the other. -/
def pops (q : List α) : List (QueueOp α) := q.map fun a => .pop (some a)

@[simp] theorem pushed_pops (q : List α) : pushed (pops q) = [] := by
  induction q with
  | nil => rfl
  | cons a q ih => simpa [pops, pushed] using ih

@[simp] theorem popped_pops (q : List α) : popped (pops q) = q := by
  induction q with
  | nil => rfl
  | cons a q ih => simpa [pops, popped] using ih

/-- One operation at a time; taking from an empty queue returns nothing and changes nothing. -/
inductive Runs : List α → List (QueueOp α) → List α → Prop
  | nil {q} : Runs q [] q
  | push {q q' a ops} : Runs (q ++ [a]) ops q' → Runs q (.push a :: ops) q'
  | pop {q q' a ops} : Runs q ops q' → Runs (a :: q) (.pop (some a) :: ops) q'
  | empty {q' ops} : Runs [] ops q' → Runs [] (.pop none :: ops) q'

theorem Runs.append {q q' q'' : List α} {ops ops' : List (QueueOp α)} (h : Runs q ops q')
    (h' : Runs q' ops' q'') : Runs q (ops ++ ops') q'' := by
  induction h with
  | nil => exact h'
  | push _ ih => exact .push (ih h')
  | pop _ ih => exact .pop (ih h')
  | empty _ ih => exact .empty (ih h')

theorem Runs.split {q q'' : List α} {ops ops' : List (QueueOp α)} (h : Runs q (ops ++ ops') q'') :
    ∃ q', Runs q ops q' ∧ Runs q' ops' q'' := by
  induction ops generalizing q with
  | nil => exact ⟨q, .nil, h⟩
  | cons op ops ih =>
    cases h with
    | push h =>
      obtain ⟨q', h1, h2⟩ := ih h
      exact ⟨q', .push h1, h2⟩
    | pop h =>
      obtain ⟨q', h1, h2⟩ := ih h
      exact ⟨q', .pop h1, h2⟩
    | empty h =>
      obtain ⟨q', h1, h2⟩ := ih h
      exact ⟨q', .empty h1, h2⟩

theorem Runs.pops (q q' : List α) : Runs (q ++ q') (QueueOp.pops q) q' := by
  induction q with
  | nil => exact .nil
  | cons a q ih => exact .pop ih

/-- Nothing is lost, doubled or overtaken. -/
theorem Runs.conserve {q q' : List α} {ops : List (QueueOp α)} (h : Runs q ops q') :
    popped ops ++ q' = q ++ pushed ops := by
  induction h with
  | nil => simp [popped, pushed]
  | push _ ih => simpa [popped, pushed] using ih
  | pop _ ih => simpa [popped, pushed] using ih
  | empty _ ih => simpa [popped, pushed] using ih

/-- Nothing comes out only when everything has come out. -/
theorem Runs.exhausted {q q' : List α} {ops ops' : List (QueueOp α)}
    (h : Runs q (ops ++ .pop none :: ops') q') : popped ops = q ++ pushed ops := by
  obtain ⟨p, h1, h2⟩ := h.split
  cases h2 with
  | empty => simpa using h1.conserve

end QueueOp

end Base
