import ZeekWebSocket.Proofs.BindingRefinement
import ZeekWebSocket.Proofs.NodeCounts
import ZeekWebSocket.Proofs.Publish

/-! Every sequence of calls on the binding of Node is one on the binding of the library, less the
calls that a conversion refuses. -/

namespace ZWS

open Base

namespace Binding

theorem run_append {P : Platform} {b b' b'' : Binding} {cs ds : List Call} {trace trace' : List Step}
    (h : b.run P cs = .ok (trace, b')) (h' : b'.run P ds = .ok (trace', b'')) :
    b.run P (cs ++ ds) = .ok (trace ++ trace', b'') := by
  induction cs generalizing b trace with
  | nil =>
    obtain ⟨rfl, rfl⟩ := Prod.mk.inj (Outcome.ok.inj h)
    exact h'
  | cons c cs ih =>
    obtain ⟨⟨s, b1⟩, hs, h⟩ := Outcome.bind_eq_ok.mp h
    obtain ⟨⟨t, b2⟩, ht, h⟩ := Outcome.bind_eq_ok.mp h
    obtain ⟨rfl, rfl⟩ := Prod.mk.inj (Outcome.ok.inj h)
    rw [List.cons_append, run, hs, Outcome.ok_bind]
    simp only [ih ht, Outcome.ok_bind, Outcome.pure_def, List.cons_append]

end Binding

namespace Node

/-- A call that does not return. -/
def Call.Crashes (P : Platform) : Call → Prop
  | .handleIncoming data => ZWS.Message.fromBytes P data = .panic
  | .publishEvent _ event => ∃ z, event.toZeek P = .ok z ∧ ¬ z.Publishable P
  | _ => False

/-- The calls on the library that a call comes to, with what they returned. -/
inductive Passes (P : Platform) : Step → List ZWS.Step → Prop
  | malformed {data e} (h : ZWS.Message.fromBytes P data = .err e) :
    Passes P (.handleIncoming data (.error (.unsupportedMessagePayload e))) []
  | handled {data message r} (h : ZWS.Message.fromBytes P data = .ok message) :
    Passes P (.handleIncoming data (r.mapError .handlingFailed)) [.handleIncoming message r]
  | outgoing {data} : Passes P (.outgoing data) [.outgoing data]
  | refused {topic event e} (h : event.toZeek P = .err e) :
    Passes P (.publishEvent topic event (.error e)) []
  | published {topic event z} (h : event.toZeek P = .ok z) :
    Passes P (.publishEvent topic event (.ok ())) [.publishEvent topic z]

section
variable {P : Platform}

/-- A call crashes, or is a run of the library. -/
inductive Steps (P : Platform) (b : ProtocolBinding) (c : Call) : Prop
  | crash (hc : c.Crashes P) (hstep : b.step P c = .panic)
  | pass {s : Step} {t : ProtocolBinding} {l : List ZWS.Step} (hc : ¬ c.Crashes P)
    (hstep : b.step P c = .ok (s, t)) (hcall : s.call = c) (hpass : Passes P s l)
    (hrun : b.inner.run P (l.map ZWS.Step.call) = .ok (l, t.inner))
    (hpub : ∀ topic event, .publishEvent topic event ∈ l.map ZWS.Step.call →
      ∃ j, (ZWS.Message.dataMessage topic (.event event)).encode P = .ok j)

variable {b : ProtocolBinding}

theorem steps_handleIncoming (data : ByteArray) : Steps P b (.handleIncoming data) := by
  cases h : ZWS.Message.fromBytes P data with
  | panic =>
    refine .crash h ?_
    simp [ProtocolBinding.step, ProtocolBinding.handleIncoming, h, ProtocolBinding.observe]
  | err e =>
    refine .pass (t := b) (by simp [Call.Crashes, h]) ?_ rfl (.malformed h) rfl (by simp)
    simp only [ProtocolBinding.step, ProtocolBinding.handleIncoming, h, ProtocolBinding.observe]
  | ok m =>
    refine .pass (t := ⟨(b.inner.handleIncoming m).2⟩) (by simp [Call.Crashes, h]) ?_ rfl
      (.handled (r := (b.inner.handleIncoming m).1) h) rfl (by simp [ZWS.Step.call])
    simp only [ProtocolBinding.step, ProtocolBinding.handleIncoming, h]
    rcases hr : b.inner.handleIncoming m with ⟨e | u, inner⟩ <;> rfl

theorem steps_outgoing : Steps P b .outgoing :=
  .pass (l := [.outgoing b.outgoing.1]) (by simp [Call.Crashes]) rfl rfl .outgoing rfl
    (by simp [ZWS.Step.call])

theorem steps_publishEvent (topic : String) (event : Event) : Steps P b (.publishEvent topic event) := by
  cases h : event.toZeek P with
  | panic => exact absurd h Event.toZeek_ne_panic
  | err e =>
    refine .pass (t := b) (by simp [Call.Crashes, h]) ?_ rfl (.refused h) rfl (by simp)
    simp only [ProtocolBinding.step, ProtocolBinding.publishEvent, h, ProtocolBinding.observe]
  | ok z =>
    by_cases hz : z.Publishable P
    · obtain ⟨j, hj⟩ : ∃ j, (ZWS.Message.dataMessage topic (.event z)).encode P = .ok j :=
        exists_encode_event.mpr hz
      refine .pass
        (t := ⟨{ b.inner with outbox := ⟨b.inner.outbox.frames ++ [.text (P.renderJson j)]⟩ }⟩)
        (by simpa [Call.Crashes, h] using hz) ?_ rfl (.published h) ?_ ?_
      · simp only [ProtocolBinding.step, ProtocolBinding.publishEvent, h,
          Binding.publishEvent_of_encode hj, ProtocolBinding.observe]
      · simp [Binding.run, Binding.step, ZWS.Step.call, Binding.publishEvent_of_encode hj]
      · intro topic' event' hmem
        obtain ⟨rfl, rfl⟩ : topic' = topic ∧ event' = z := by simpa [ZWS.Step.call] using hmem
        exact ⟨j, hj⟩
    · refine .crash ⟨z, h, hz⟩ ?_
      simp only [ProtocolBinding.step, ProtocolBinding.publishEvent, h, Binding.publishEvent,
        Binding.enqueue, Outbox.enqueue, ZWS.Message.newData_eq, toFrame_panic hz,
        Outcome.panic_bind, ProtocolBinding.observe]

theorem steps (c : Call) : Steps P b c := by
  cases c with
  | handleIncoming data => exact steps_handleIncoming data
  | outgoing => exact steps_outgoing
  | publishEvent topic event => exact steps_publishEvent topic event

/-- A run that does not crash is a run of the library, of the calls that got there. -/
structure Follows (P : Platform) (b : ProtocolBinding) (calls : List Call) (trace : List Step)
    (steps : List (List ZWS.Step)) (b' : ProtocolBinding) : Prop where
  run : b.run P calls = .ok (trace, b')
  calls : trace.map Step.call = calls
  passes : List.Forall₂ (Passes P) trace steps
  inner : b.inner.run P (steps.flatten.map ZWS.Step.call) = .ok (steps.flatten, b'.inner)
  encodes : ∀ topic event, .publishEvent topic event ∈ steps.flatten.map ZWS.Step.call →
    ∃ j, (ZWS.Message.dataMessage topic (.event event)).encode P = .ok j

theorem run_passes (hb : b.inner.Coherent) (calls : List Call) :
    (∃ c ∈ calls, c.Crashes P) ∧ b.run P calls = .panic ∨
      (∀ c ∈ calls, ¬ c.Crashes P) ∧ ∃ trace steps b', Follows P b calls trace steps b' := by
  induction calls generalizing b with
  | nil => exact .inr ⟨by simp, [], [], b, rfl, rfl, .nil, rfl, by simp⟩
  | cons c calls ih =>
    rcases steps (b := b) c with ⟨hc, hstep⟩ | @⟨s, b1, ss, hc, hstep, hcall, hpass, hrun, hpub⟩
    · exact .inl ⟨⟨c, by simp, hc⟩, by simp [ProtocolBinding.run, hstep]⟩
    · obtain ⟨_, _, hrun', -, hsim, -⟩ := Binding.run_simulates hb _ hpub
      obtain ⟨rfl, rfl⟩ := Prod.mk.inj (Outcome.ok.inj (hrun.symm.trans hrun'))
      rcases ih hsim.coherent with ⟨⟨c', hmem, hc'⟩, hpanic⟩ | ⟨hcs, trace, sss, b', h⟩
      · exact .inl ⟨⟨c', by simp [hmem], hc'⟩, by simp [ProtocolBinding.run, hstep, hpanic]⟩
      · refine .inr ⟨List.forall_mem_cons.mpr ⟨hc, hcs⟩, s :: trace, ss :: sss, b', ?_, ?_, ?_, ?_, ?_⟩
        · rw [ProtocolBinding.run, hstep, Outcome.ok_bind]
          simp only [h.run, Outcome.ok_bind, Outcome.pure_def]
        · rw [List.map_cons, hcall, h.calls]
        · exact .cons hpass h.passes
        · rw [List.flatten_cons, List.map_append]
          exact Binding.run_append hrun h.inner
        · rw [List.flatten_cons, List.map_append]
          intro topic event hmem
          rcases List.mem_append.mp hmem with hmem | hmem
          · exact hpub topic event hmem
          · exact h.encodes topic event hmem

end

/-- Every sequence of calls crashes at a call that crashes, or is a history of the two queues of the
library's binding, of the calls that got there. -/
theorem binding_passes (P : Platform) (subscriptions : List String) (calls : List Call) :
    (∃ c ∈ calls, c.Crashes P) ∧ (ProtocolBinding.new P subscriptions).run P calls = .panic ∨
      (∀ c ∈ calls, ¬ c.Crashes P) ∧ ∃ trace steps b,
        (ProtocolBinding.new P subscriptions).run P calls = .ok (trace, b) ∧
        trace.map Step.call = calls ∧ List.Forall₂ (Passes P) trace steps ∧
        TwoQueues P ⟨subscriptions⟩ steps.flatten b.inner := by
  have hb : (ProtocolBinding.new P subscriptions).inner.Coherent := by
    simp [Binding.Coherent, Binding.new, ProtocolBinding.new]
  rcases run_passes hb calls with hcrash | ⟨hcs, trace, steps, b, h⟩
  · exact .inl hcrash
  · obtain ⟨_, _, hrun, -, hsim, hv⟩ := Binding.run_simulates hb _ h.encodes
    obtain ⟨rfl, rfl⟩ := Prod.mk.inj (Outcome.ok.inj (h.inner.symm.trans hrun))
    exact .inr ⟨hcs, trace, steps, b, h.run, h.calls, h.passes, .of_simulates hsim hv⟩

end Node

end ZWS
