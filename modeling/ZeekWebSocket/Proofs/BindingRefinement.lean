import ZeekWebSocket.Library.Fifo
import ZeekWebSocket.Sanity.Binding
import ZeekWebSocket.Sanity.Sample

/-! The binding is two queues and a flag. Every sequence of calls on it is a history of one
queue of deliveries and one queue of payloads, and what it rejects depends on the first
acknowledgement alone. -/

namespace ZWS

open Base

/-- `Result<Option<_>>` turned inside out, as in `transpose`. -/
def transpose {α ε : Type} : Except ε (Option α) → Option (Except ε α)
  | .ok none => none
  | .ok (some a) => some (.ok a)
  | .error e => some (.error e)

namespace Step

/-- What a call did to the queue of deliveries. -/
def inOps : Step → List (QueueOp (Except ProtocolError (String × Event)))
  | .handleIncoming message (.ok _) => message.delivery.toList.map .push
  | .receiveEvent r => [.pop (transpose r)]
  | _ => []

/-- What a call did to the queue of payloads. -/
def outOps (P : Platform) : Step → List (QueueOp ByteArray)
  | .publishEvent topic event => [.push (payload P topic event)]
  | .outgoing data => [.pop data]
  | _ => []

def isAck : Step → Bool
  | .handleIncoming message _ => message.isAck
  | _ => false

end Step

namespace Binding

/-- One call is one move of the two queues. -/
structure Simulates (P : Platform) (b : Binding) (trace : List Step) (b' : Binding) : Prop where
  incoming : QueueOp.Runs b.deliveries (trace.flatMap Step.inOps) b'.deliveries
  outgoing : QueueOp.Runs b.payloads (trace.flatMap (Step.outOps P)) b'.payloads
  coherent : b'.Coherent
  acknowledged : b'.acknowledged = (b.acknowledged || trace.any Step.isAck)

theorem Simulates.refl {P : Platform} {b : Binding} (h : b.Coherent) : Simulates P b [] b :=
  ⟨.nil, .nil, h, by simp⟩

theorem Simulates.cons {P : Platform} {b b' b'' : Binding} {s : Step} {trace : List Step}
    (h : Simulates P b [s] b') (h' : Simulates P b' trace b'') : Simulates P b (s :: trace) b'' where
  incoming := by simpa using h.incoming.append h'.incoming
  outgoing := by simpa using h.outgoing.append h'.outgoing
  coherent := h'.coherent
  acknowledged := by rw [h'.acknowledged, h.acknowledged]; simp [Bool.or_assoc]

section
variable {P : Platform} {b : Binding}

theorem simulates_handleIncoming (hb : b.Coherent) (m : Message) :
    Simulates P b [.handleIncoming m (b.handleIncoming m).1] (b.handleIncoming m).2 := by
  rcases h : b.handleIncoming m with ⟨e | _, b'⟩
  · obtain ⟨rfl, hcause⟩ := handleIncoming_error h
    refine ⟨.nil, .nil, hb, ?_⟩
    rcases hcause with ⟨hm, hack, -⟩ | ⟨topic, v, rfl, -⟩
    · simp [Step.isAck, hm, hack]
    · simp [Step.isAck, Message.isAck]
  · obtain ⟨hq, hout, hack, hcoh⟩ := handleIncoming_ok h
    refine ⟨?_, ?_, hcoh hb, by simpa [Step.isAck] using hack⟩
    · rw [hq]
      simp only [List.flatMap_cons, List.flatMap_nil, Step.inOps, List.append_nil]
      cases m.delivery with
      | none => simpa using .nil
      | some d => exact .push .nil
    · simp only [payloads, hout]
      exact .nil

theorem simulates_outgoing (hb : b.Coherent) :
    Simulates P b [.outgoing b.outgoing.1] b.outgoing.2 := by
  rcases h : b.outgoing with ⟨_ | data, b'⟩
  · obtain ⟨hq, rfl⟩ := outgoing_none h
    refine ⟨.nil, ?_, hb, by simp [Step.isAck]⟩
    rw [hq]
    exact .empty .nil
  · obtain ⟨hq, hb'⟩ := outgoing_some h
    rw [hb']
    refine ⟨.nil, ?_, hb, by simp [Step.isAck, acknowledged]⟩
    rw [hq]
    exact .pop .nil

theorem simulates_receiveEvent (hb : b.Coherent) :
    ∃ r b', b.step P .receiveEvent = .ok (.receiveEvent r, b') ∧ Simulates P b [.receiveEvent r] b' := by
  rcases receiveEvent_cases hb with ⟨hnil, h⟩ | ⟨d, inbox, h, hq, hcoh⟩
  · refine ⟨.ok none, b, by simp [step, h], ?_, .nil, hb, by simp [Step.isAck]⟩
    simp only [deliveries, hnil]
    exact .empty .nil
  · have hsim : ∀ r, transpose r = some d →
        Simulates P b [.receiveEvent r] { b with inbox := inbox } := by
      intro r hr
      refine ⟨?_, .nil, hcoh, by simp [Step.isAck, acknowledged]⟩
      simp only [hq, List.flatMap_cons, Step.inOps, hr]
      exact .pop .nil
    cases d with
    | ok e => exact ⟨.ok (some e), _, by simp [step, h, returned], hsim _ rfl⟩
    | error e => exact ⟨.error e, _, by simp [step, h, returned], hsim _ rfl⟩

theorem simulates_publishEvent (hb : b.Coherent) {topic : String} {event : Event} {j : Json}
    (hj : (Message.dataMessage topic (.event event)).encode P = .ok j) :
    ∃ b', b.step P (.publishEvent topic event) = .ok (.publishEvent topic event, b') ∧
      Simulates P b [.publishEvent topic event] b' := by
  have h := publishEvent_of_encode (ε := Empty) (b := b) hj
  refine ⟨{ b with outbox := ⟨b.outbox.frames ++ [.text (P.renderJson j)]⟩ }, by simp [step, h], .nil, ?_,
    hb, by simp [Step.isAck, acknowledged]⟩
  rw [(publishEvent_ok h).1]
  exact .push .nil

/-- Every call returns and is one move of the queues. -/
theorem step_simulates (hb : b.Coherent) (c : Call)
    (hc : ∀ topic event, c = .publishEvent topic event →
      ∃ j, (Message.dataMessage topic (.event event)).encode P = .ok j) :
    ∃ s b', b.step P c = .ok (s, b') ∧ s.call = c ∧ Simulates P b [s] b' ∧
      ∀ m r, s = .handleIncoming m r → r = verdict b.acknowledged m := by
  cases c with
  | handleIncoming m =>
    refine ⟨_, _, rfl, rfl, simulates_handleIncoming hb m, ?_⟩
    rintro _ _ ⟨rfl, rfl⟩
    exact handleIncoming_verdict b m
  | receiveEvent =>
    obtain ⟨r, b', hstep, hs⟩ := simulates_receiveEvent (P := P) hb
    exact ⟨_, b', hstep, rfl, hs, by simp⟩
  | publishEvent topic event =>
    obtain ⟨j, hj⟩ := hc topic event rfl
    obtain ⟨b', hstep, hs⟩ := simulates_publishEvent hb hj
    exact ⟨_, b', hstep, rfl, hs, by simp⟩
  | outgoing => exact ⟨_, _, rfl, rfl, simulates_outgoing hb, by simp⟩

theorem run_simulates (hb : b.Coherent) (calls : List Call)
    (hpub : ∀ topic event, .publishEvent topic event ∈ calls →
      ∃ j, (Message.dataMessage topic (.event event)).encode P = .ok j) :
    ∃ trace b', b.run P calls = .ok (trace, b') ∧ trace.map Step.call = calls ∧
      Simulates P b trace b' ∧
      ∀ pre m r post, trace = pre ++ .handleIncoming m r :: post →
        r = verdict (b.acknowledged || pre.any Step.isAck) m := by
  induction calls generalizing b with
  | nil => exact ⟨[], b, rfl, rfl, .refl hb, by simp⟩
  | cons c calls ih =>
    obtain ⟨s, b', hstep, hcall, hs, hverdict⟩ := step_simulates hb c
      fun topic event heq => hpub topic event (by simp [heq])
    obtain ⟨trace, b'', hrun, hcalls, hsim, hrest⟩ := ih hs.coherent
      fun topic event hmem => hpub topic event (by simp [hmem])
    refine ⟨s :: trace, b'', ?_, by simp [hcall, hcalls], hs.cons hsim, ?_⟩
    · rw [run, hstep, Outcome.ok_bind]
      simp only [hrun, Outcome.ok_bind, Outcome.pure_def]
    · intro pre m r post heq
      cases pre with
      | nil =>
        obtain ⟨rfl, -⟩ := List.cons.inj heq
        simpa using hverdict m r rfl
      | cons s' pre =>
        obtain ⟨rfl, rfl⟩ := List.cons.inj heq
        rw [hrest pre m r post rfl, hs.acknowledged]
        simp [Bool.or_assoc]

end

end Binding

/-! The history of the calls, as their caller sees it. -/

/-- What `outgoing` handed out. -/
def handedOut (trace : List Step) : List ByteArray :=
  trace.filterMap fun
    | .outgoing data => data
    | _ => none

/-- The payloads of the published events. -/
def published (P : Platform) (trace : List Step) : List ByteArray :=
  trace.filterMap fun
    | .publishEvent topic event => some (payload P topic event)
    | _ => none

/-- What `receive_event` returned other than `Ok(None)`. -/
def delivered (trace : List Step) : List (Except ProtocolError (String × Event)) :=
  trace.filterMap fun
    | .receiveEvent r => transpose r
    | _ => none

/-- The deliveries of the messages that `handle_incoming` accepted. -/
def accepted (trace : List Step) : List (Except ProtocolError (String × Event)) :=
  trace.filterMap fun
    | .handleIncoming message (.ok _) => message.delivery
    | _ => none

section
variable (P : Platform) (trace : List Step)

theorem popped_outOps : QueueOp.popped (trace.flatMap (Step.outOps P)) = handedOut trace := by
  induction trace with
  | nil => rfl
  | cons s trace ih =>
    cases s with
    | outgoing data => cases data <;> simpa [Step.outOps, handedOut, QueueOp.popped] using ih
    | _ => simpa [Step.outOps, handedOut, QueueOp.popped] using ih

theorem pushed_outOps : QueueOp.pushed (trace.flatMap (Step.outOps P)) = published P trace := by
  induction trace with
  | nil => rfl
  | cons s trace ih => cases s <;> simpa [Step.outOps, published, QueueOp.pushed] using ih

theorem popped_inOps : QueueOp.popped (trace.flatMap Step.inOps) = delivered trace := by
  induction trace with
  | nil => rfl
  | cons s trace ih =>
    cases s with
    | receiveEvent r =>
      cases h : transpose r <;> simpa [Step.inOps, delivered, QueueOp.popped, h] using ih
    | handleIncoming m r =>
      cases r with
      | error e => simpa [Step.inOps, delivered, QueueOp.popped] using ih
      | ok u => cases h : m.delivery <;> simpa [Step.inOps, delivered, QueueOp.popped, h] using ih
    | _ => simpa [Step.inOps, delivered, QueueOp.popped] using ih

theorem pushed_inOps : QueueOp.pushed (trace.flatMap Step.inOps) = accepted trace := by
  induction trace with
  | nil => rfl
  | cons s trace ih =>
    cases s with
    | handleIncoming m r =>
      cases r with
      | error e => simpa [Step.inOps, accepted, QueueOp.pushed] using ih
      | ok u => cases h : m.delivery <;> simpa [Step.inOps, accepted, QueueOp.pushed, h] using ih
    | _ => simpa [Step.inOps, accepted, QueueOp.pushed] using ih

end

/-- The two queues of a binding over its whole history. -/
structure TwoQueues (P : Platform) (subscriptions : Subscriptions) (trace : List Step) (b : Binding) :
    Prop where
  outgoing : handedOut trace ++ b.payloads = subscriptions.payload P :: published P trace
  outgoing_none : ∀ pre post, trace = pre ++ .outgoing none :: post →
    handedOut pre = subscriptions.payload P :: published P pre
  incoming : delivered trace ++ b.deliveries = accepted trace
  incoming_none : ∀ pre post, trace = pre ++ .receiveEvent (.ok none) :: post →
    delivered pre = accepted pre
  handled : ∀ pre m r post, trace = pre ++ .handleIncoming m r :: post →
    r = Binding.verdict (pre.any Step.isAck) m

theorem TwoQueues.of_simulates {P : Platform} {subscriptions : Subscriptions} {trace : List Step}
    {b : Binding} (h : (Binding.new P subscriptions).Simulates P trace b)
    (hv : ∀ pre m r post, trace = pre ++ .handleIncoming m r :: post →
      r = Binding.verdict ((Binding.new P subscriptions).acknowledged || pre.any Step.isAck) m) :
    TwoQueues P subscriptions trace b where
  outgoing := by
    rw [← popped_outOps P, ← pushed_outOps P, h.outgoing.conserve]
    rfl
  outgoing_none pre post heq := by
    subst heq
    have hruns := h.outgoing
    rw [List.flatMap_append, List.flatMap_cons] at hruns
    rw [← popped_outOps P, ← pushed_outOps P]
    exact hruns.exhausted
  incoming := by
    rw [← popped_inOps, ← pushed_inOps, h.incoming.conserve]
    rfl
  incoming_none pre post heq := by
    subst heq
    have hruns := h.incoming
    rw [List.flatMap_append, List.flatMap_cons] at hruns
    rw [← popped_inOps, ← pushed_inOps]
    exact hruns.exhausted
  handled := hv

/-- Every sequence of calls on a new binding runs without a panic and is a history of the two
queues, and a message that is rejected changes nothing. -/
theorem binding_refines (P : Platform) (subscriptions : Subscriptions) (calls : List Call)
    (hpub : ∀ topic event, .publishEvent topic event ∈ calls →
      ∃ j, (Message.dataMessage topic (.event event)).encode P = .ok j) :
    (∃ trace b, (Binding.new P subscriptions).run P calls = .ok (trace, b) ∧
      trace.map Step.call = calls ∧ TwoQueues P subscriptions trace b) ∧
    ∀ (b b' : Binding) m e, b.handleIncoming m = (.error e, b') → b' = b := by
  refine ⟨?_, ?_⟩
  · obtain ⟨trace, b, hrun, hcalls, hsim, hv⟩ := Binding.run_simulates
      (b := Binding.new P subscriptions) (by simp [Binding.Coherent, Binding.new]) calls hpub
    exact ⟨trace, b, hrun, hcalls, .of_simulates hsim hv⟩
  · intro b b' m e h
    exact (Binding.handleIncoming_error h).1

/-- Subscribe, receive a ping with an error behind it, answer, and ask once too often. -/
def pingPongCalls : List Call :=
  [.outgoing, .handleIncoming (.ack "endpoint" "version"),
    .handleIncoming (.dataMessage "/ping" (.event (.new "ping" [.count 1]))),
    .handleIncoming (.error "code" "context"), .receiveEvent,
    .publishEvent "/ping" (.new "pong" [.count 1]), .handleIncoming (.ack "endpoint" "version"),
    .outgoing, .receiveEvent, .receiveEvent, .outgoing]

theorem pingPong_refines :
    ∃ trace b, (Binding.new Sample.utcPlatform ⟨["/ping"]⟩).run Sample.utcPlatform pingPongCalls =
        .ok (trace, b) ∧
      trace.map Step.call = pingPongCalls ∧ TwoQueues Sample.utcPlatform ⟨["/ping"]⟩ trace b := by
  refine (binding_refines Sample.utcPlatform ⟨["/ping"]⟩ pingPongCalls fun topic event h => ?_).1
  obtain ⟨rfl, rfl⟩ : topic = "/ping" ∧ event = .new "pong" [.count 1] := by
    simpa [pingPongCalls] using h
  exact ⟨_, rfl⟩

end ZWS
