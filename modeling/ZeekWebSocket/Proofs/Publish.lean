import ZeekWebSocket.Sanity.Sample
import ZeekWebSocket.Sanity.Writer
import ZeekWebSocket.Spec.Binding

/-! When publishing returns. The conversion at the end of the publish path asserts what the
writer of values does not promise, so an event with an unwritable leaf is a panic. -/

namespace ZWS

open Base

/-- Every timespan and timestamp in the arguments and the metadata of the event has a text. -/
def Event.Publishable (P : Platform) (e : Event) : Prop :=
  ∀ v ∈ e.args ++ e.metadata, ∀ w ∈ v.parts, Value.Writable P w

section
variable {P : Platform}

theorem forall_parts_toValue {Q : Value → Prop} (e : Event) (hv : ∀ xs, Q (.vector xs))
    (hc : ∀ n, Q (.count n)) (hs : ∀ s, Q (.string s)) :
    (∀ w ∈ (Data.toValue (.event e)).parts, Q w) ↔
      ∀ v ∈ e.args ++ e.metadata, ∀ w ∈ v.parts, Q w := by
  have hcount : ∀ n, ∀ w ∈ (Value.count n).parts, Q w := fun n => by simpa [Value.parts] using hc n
  have hstring : ∀ s, ∀ w ∈ (Value.string s).parts, Q w := fun s => by simpa [Value.parts] using hs s
  rw [Data.toValue, List.forall_mem_append]
  simp only [Value.forall_parts_vector, List.forall_mem_cons, List.not_mem_nil, false_implies,
    implies_true, and_true, hv, true_and]
  exact ⟨fun h => h.2.2.2, fun h => ⟨hcount _, hcount _, hstring _, h⟩⟩

/-- The assertion at the end of the publish path holds exactly for publishable events. -/
theorem exists_encode_event {topic : String} {e : Event} :
    (∃ j, (Message.dataMessage topic (.event e)).encode P = .ok j) ↔ e.Publishable P := by
  have hmsg : (∃ j, (Message.dataMessage topic (.event e)).encode P = .ok j) ↔
      ∃ j, (Data.toValue (.event e)).encode P = .ok j := by
    rw [Value.exists_encode_ok]
    exact Outcome.exists_bind_ok
  rw [hmsg, Value.exists_encode_iff, Event.Publishable]
  exact forall_parts_toValue e (fun _ => trivial) (fun _ => trivial) fun _ => trivial

theorem toFrame_of_publishable {ε : Type} (topic : String) {e : Event} (h : e.Publishable P) :
    ∃ frame, ((Message.dataMessage topic (.event e)).toFrame P : Outcome ε Frame) = .ok frame := by
  obtain ⟨j, hj⟩ : ∃ j, (Message.dataMessage topic (.event e)).encode P = .ok j :=
    exists_encode_event.mpr h
  exact ⟨.text (P.renderJson j), by rw [Message.toFrame, hj]⟩

theorem toFrame_panic {ε : Type} {topic : String} {e : Event} (h : ¬ e.Publishable P) :
    ((Message.dataMessage topic (.event e)).toFrame P : Outcome ε Frame) = .panic := by
  rw [Message.toFrame]
  cases hm : (Message.dataMessage topic (.event e)).encode P with
  | ok j => exact absurd (exists_encode_event.mp ⟨j, hm⟩) h
  | err e => rfl
  | panic => rfl

end

/-- Publishing returns, with one message behind those already queued, exactly for publishable
events; the message is serialized exactly for them, and for all others publishing panics. -/
theorem publish_iff (P : Platform) (b : Binding) (topic : String) (event : Event) :
    ((∃ frame, (b.publishEvent P topic event : Outcome Empty Binding) =
        .ok { b with outbox := ⟨b.outbox.frames ++ [frame]⟩ }) ↔ event.Publishable P) ∧
    ((∃ frame, (b.split.2.enqueueEvent P topic event : Outcome Empty Outbox) =
        .ok ⟨b.outbox.frames ++ [frame]⟩) ↔ event.Publishable P) ∧
    ((∃ j, (Message.newData topic event).encode P = .ok j) ↔ event.Publishable P) ∧
    (¬ event.Publishable P → (b.publishEvent P topic event : Outcome Empty Binding) = .panic ∧
      (b.split.2.enqueueEvent P topic event : Outcome Empty Outbox) = .panic) := by
  have hpanic : ¬ event.Publishable P →
      (b.publishEvent P topic event : Outcome Empty Binding) = .panic ∧
        (b.split.2.enqueueEvent P topic event : Outcome Empty Outbox) = .panic := by
    intro h
    simp [Binding.publishEvent, Binding.enqueue, Outbox.enqueueEvent, Outbox.enqueue, toFrame_panic h]
  have hframe : event.Publishable P →
      ∃ frame, ((Message.dataMessage topic (.event event)).toFrame P : Outcome Empty Frame) = .ok frame :=
    toFrame_of_publishable topic
  refine ⟨⟨?_, ?_⟩, ⟨?_, ?_⟩, exists_encode_event, hpanic⟩
  · intro h
    obtain ⟨frame, hf⟩ := h
    by_contra hnot
    simp [(hpanic hnot).1] at hf
  · intro h
    obtain ⟨frame, hf⟩ := hframe h
    exact ⟨frame, by simp [Binding.publishEvent, Binding.enqueue, Outbox.enqueue, hf]⟩
  · intro h
    obtain ⟨frame, hf⟩ := h
    by_contra hnot
    simp [(hpanic hnot).2] at hf
  · intro h
    obtain ⟨frame, hf⟩ := hframe h
    exact ⟨frame, by simp [Outbox.enqueueEvent, Outbox.enqueue, Binding.split, hf]⟩

/-- The longest duration there is. -/
def longest : Duration := ⟨9223372036854775807, 999999999, by decide, by decide⟩

theorem longest_crashes :
    ¬ ∀ (P : Platform) (subscriptions : Subscriptions) (topic : String) (event : Event),
      (Binding.new P subscriptions).publishEvent P topic event ≠ (.panic : Outcome Empty Binding) := by
  intro h
  exact h Sample.utcPlatform ⟨[]⟩ "/ping" (.new "pong" [.timespan longest]) rfl

end ZWS
