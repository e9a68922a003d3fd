import ZeekWebSocket.Sanity.Message

/-! Taking values for events is a normalisation. It is the identity on everything that is no
event, and the values that events are turned into are its fixed points. -/

namespace ZWS

namespace Data

/-- The metadata that a third entry stands for, if there is one. -/
def Metadata (entry : Option Value) (metadata : List Value) : Prop :=
  entry = none ∧ metadata = [] ∨ entry = some (.vector metadata) ∨
    ∃ x, entry = some x ∧ (∀ xs, x ≠ .vector xs) ∧ metadata = [x]

/-- `v` is laid out as the event `e`. -/
def Holds (v : Value) (e : Event) : Prop :=
  ∃ xs data, v = .vector xs ∧ xs[1]? = some (.count 1) ∧ xs[2]? = some (.vector data) ∧
    data[0]? = some (.string e.name) ∧ data[1]? = some (.vector e.args) ∧ Metadata data[2]? e.metadata

theorem metadata_iff {entry : Option Value} {metadata : List Value} :
    Metadata entry metadata ↔ metadata = metadataOf entry := by
  unfold Metadata metadataOf
  cases entry with
  | none => simp
  | some x => cases x <;> simp [eq_comm]

theorem holds_iff {v : Value} {e : Event} : Holds v e ↔ eventOf v = some e := by
  rw [eventOf_eq_some]
  refine ⟨?_, ?_⟩
  · intro h
    obtain ⟨xs, data, rfl, hcount, hdata, hname, hargs, hm⟩ := h
    obtain ⟨x, more, rfl⟩ : ∃ x more, xs = x :: .count 1 :: .vector data :: more := by
      match xs with
      | x :: y :: z :: more => simp_all
      | [] | [_] | [_, _] => simp at hdata
    obtain ⟨rest, rfl⟩ : ∃ rest, data = .string e.name :: .vector e.args :: rest := by
      match data with
      | x :: y :: rest => simp_all
      | [] | [_] => simp at hargs
    refine ⟨x, rest, more, rfl, ?_⟩
    rw [metadata_iff.mp hm]
    cases rest <;> rfl
  · intro h
    obtain ⟨x, rest, more, rfl, hm⟩ := h
    refine ⟨_, _, rfl, rfl, rfl, rfl, rfl, metadata_iff.mpr ?_⟩
    rw [hm]
    cases rest <;> rfl

theorem ofValue_eq_event {v : Value} {e : Event} : ofValue v = .event e ↔ Holds v e := by
  rw [holds_iff, ofValue]
  cases eventOf v <;> simp

theorem ofValue_other {v : Value} (h : ¬ ∃ e, Holds v e) : ofValue v = .other v :=
  ofValue_of_not_eventShaped fun hs => by
    obtain ⟨e, he⟩ := eventOf_isSome.mpr hs
    exact h ⟨e, holds_iff.mpr he⟩

theorem ofValue_idempotent (v : Value) : ofValue (toValue (ofValue v)) = ofValue v := by
  by_cases h : ∃ e, Holds v e
  · obtain ⟨e, he⟩ := h
    rw [ofValue_eq_event.mpr he, ofValue_toValue]
  · rw [ofValue_other h, toValue, ofValue_other h]

/-- Recognising events is idempotent, loses nothing that is no event, finds every event again and
goes by the layout alone. -/
theorem recognition_normalises :
    (∀ v, ofValue (toValue (ofValue v)) = ofValue v) ∧
    (∀ v, (¬ ∃ e, Holds v e) → toValue (ofValue v) = v) ∧
    (∀ e, ofValue (toValue (.event e)) = .event e) ∧
    ∀ v e, ofValue v = .event e ↔ Holds v e :=
  ⟨ofValue_idempotent, fun v h => by rw [ofValue_other h, toValue], ofValue_toValue,
    fun _ _ => ofValue_eq_event⟩

end Data

end ZWS
