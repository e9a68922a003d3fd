import ZeekWebSocket.Proofs.BindingRefinement
import ZeekWebSocket.Spec.Halves

/-! What goes through a binding that is split on the way. Nothing is lost, doubled or reordered at the
split or after it, except that `next_event` drops the messages in front of the next event. -/

namespace ZWS

open Base

def Message.event? : Message → Option (String × Event)
  | .dataMessage topic (.event event) => some (topic, event)
  | _ => none

/-- The message that an event came in. -/
def eventMessage (e : String × Event) : Message := .dataMessage e.1 (.event e.2)

namespace Halves

/-- The payload of a message. -/
def text (P : Platform) (m : Message) : ByteArray :=
  match m.encode P with
  | .ok j => (P.renderJson j).toUTF8
  | _ => .empty

def payloads (h : Halves) : List ByteArray := h.outbox.frames.map Frame.intoData

/-- A call that does not return. -/
def Call.Crashes (P : Platform) : Call → Prop
  | .enqueue message => ¬ ∃ j, message.encode P = .ok j
  | .enqueueEvent topic event => ¬ ∃ j, (Message.dataMessage topic (.event event)).encode P = .ok j
  | _ => False

namespace Step

/-- What a call did to the messages. -/
inductive Does : Step → List (QueueOp Message) → Prop
  | handle {message} : Does (.handle message) [.push message]
  | nextMessage {r} : Does (.nextMessage r) [.pop r]
  | found {skipped e} (hs : ∀ m ∈ skipped, m.event? = none) :
    Does (.nextEvent (some e)) (QueueOp.pops skipped ++ [.pop (some (eventMessage e))])
  | dry {skipped} (hs : ∀ m ∈ skipped, m.event? = none) :
    Does (.nextEvent none) (QueueOp.pops skipped ++ [.pop none])
  | enqueue {message} : Does (.enqueue message) []
  | enqueueEvent {topic event} : Does (.enqueueEvent topic event) []
  | nextData {data} : Does (.nextData data) []

/-- What a call did to the payloads. -/
def outOps (P : Platform) : Step → List (QueueOp ByteArray)
  | .enqueue message => [.push (text P message)]
  | .enqueueEvent topic event => [.push (text P (.dataMessage topic (.event event)))]
  | .nextData data => [.pop data]
  | _ => []

def seen : Step → List Message
  | .nextMessage r => r.toList
  | .nextEvent r => r.toList.map eventMessage
  | _ => []

def handled : Step → List Message
  | .handle message => [message]
  | _ => []

def handed : Step → List ByteArray
  | .nextData data => data.toList
  | _ => []

def enqueued (P : Platform) : Step → List ByteArray
  | .enqueue message => [text P message]
  | .enqueueEvent topic event => [text P (.dataMessage topic (.event event))]
  | _ => []

end Step

/-- One call is one move of each queue. -/
structure Simulates (P : Platform) (h : Halves) (trace : List Step) (h' : Halves) : Prop where
  incoming : ∃ ops, List.Forall₂ Step.Does trace ops ∧
    QueueOp.Runs h.inbox.messages ops.flatten h'.inbox.messages
  outgoing : QueueOp.Runs h.payloads (trace.flatMap (Step.outOps P)) h'.payloads

theorem Simulates.refl {P : Platform} (h : Halves) : Simulates P h [] h := ⟨⟨[], .nil, .nil⟩, .nil⟩

theorem Simulates.cons {P : Platform} {h h' h'' : Halves} {s : Step} {trace : List Step}
    (hs : Simulates P h [s] h') (ht : Simulates P h' trace h'') : Simulates P h (s :: trace) h'' := by
  obtain ⟨ops, hdoes, hruns⟩ := hs.incoming
  obtain ⟨ops', hdoes', hruns'⟩ := ht.incoming
  refine ⟨⟨ops ++ ops', ?_, ?_⟩, by simpa using hs.outgoing.append ht.outgoing⟩
  · exact List.rel_append hdoes hdoes'
  · rw [List.flatten_append]
    exact hruns.append hruns'

theorem nextEventOf_cases (ms : List Message) :
    ∃ skipped, (∀ m ∈ skipped, m.event? = none) ∧
      ((∃ e rest, Inbox.nextEventOf ms = (some e, ⟨rest⟩) ∧ ms = skipped ++ eventMessage e :: rest) ∨
        Inbox.nextEventOf ms = (none, ⟨[]⟩) ∧ ms = skipped) := by
  induction ms with
  | nil => exact ⟨[], by simp, .inr ⟨rfl, rfl⟩⟩
  | cons m ms ih =>
    obtain ⟨skipped, hskipped, hcases⟩ := ih
    have hskip : m.event? = none → Inbox.nextEventOf (m :: ms) = Inbox.nextEventOf ms →
        ∃ skipped, (∀ m ∈ skipped, m.event? = none) ∧
          ((∃ e rest, Inbox.nextEventOf (m :: ms) = (some e, ⟨rest⟩) ∧
            m :: ms = skipped ++ eventMessage e :: rest) ∨
          Inbox.nextEventOf (m :: ms) = (none, ⟨[]⟩) ∧ m :: ms = skipped) := by
      intro hm hnext
      refine ⟨m :: skipped, List.forall_mem_cons.mpr ⟨hm, hskipped⟩, ?_⟩
      rw [hnext]
      rcases hcases with ⟨e, rest, hms, hsplit⟩ | ⟨hms, hsplit⟩
      · exact .inl ⟨e, rest, hms, by rw [hsplit]; rfl⟩
      · exact .inr ⟨hms, by rw [hsplit]⟩
    cases m with
    | dataMessage topic data =>
      cases data with
      | event event => exact ⟨[], by simp, .inl ⟨(topic, event), ms, rfl, rfl⟩⟩
      | other v => exact hskip rfl rfl
    | _ => exact hskip rfl rfl

section
variable {P : Platform} {h : Halves}

/-- A call crashes, or is one move of each queue. -/
inductive Steps (P : Platform) (h : Halves) (c : Call) : Prop
  | crash (hc : c.Crashes P) (hstep : h.step P c = .panic)
  | pass {s : Step} {h' : Halves} (hc : ¬ c.Crashes P) (hstep : h.step P c = .ok (s, h'))
    (hcall : s.call = c) (hsim : Simulates P h [s] h')

theorem simulates_inbox {s : Step} {ops : List (QueueOp Message)} {i : Inbox} (hd : s.Does ops)
    (hout : s.outOps P = []) (hr : QueueOp.Runs h.inbox.messages ops i.messages) :
    Simulates P h [s] { h with inbox := i } where
  incoming := ⟨[ops], .cons hd .nil, by simpa using hr⟩
  outgoing := by simpa [hout] using .nil

theorem simulates_outbox {s : Step} {outbox : Outbox} (hd : s.Does [])
    (hr : QueueOp.Runs h.payloads (s.outOps P) (outbox.frames.map Frame.intoData)) :
    Simulates P h [s] { h with outbox := outbox } where
  incoming := ⟨[[]], .cons hd .nil, by simpa using .nil⟩
  outgoing := by
    rw [List.flatMap_singleton]
    exact hr

theorem steps_nextMessage : Steps P h .nextMessage := by
  refine .pass (by simp [Call.Crashes]) rfl rfl (simulates_inbox .nextMessage rfl ?_)
  obtain ⟨⟨messages⟩, outbox⟩ := h
  cases messages with
  | nil => exact .empty .nil
  | cons m ms => exact .pop .nil

theorem steps_nextEvent : Steps P h .nextEvent := by
  obtain ⟨skipped, hskipped, ⟨e, rest, hnext, hms⟩ | ⟨hnext, hms⟩⟩ :=
    nextEventOf_cases h.inbox.messages
  · refine .pass (by simp [Call.Crashes]) (by simp only [step, Inbox.nextEvent, hnext]) rfl
      (simulates_inbox (i := ⟨rest⟩) (.found (e := e) hskipped) rfl ?_)
    rw [hms]
    exact (QueueOp.Runs.pops skipped _).append (.pop .nil)
  · refine .pass (by simp [Call.Crashes]) (by simp only [step, Inbox.nextEvent, hnext]) rfl
      (simulates_inbox (i := ⟨[]⟩) (.dry hskipped) rfl ?_)
    rw [hms]
    have hruns := QueueOp.Runs.pops skipped []
    rw [List.append_nil] at hruns
    exact hruns.append (.empty .nil)

theorem steps_nextData : Steps P h .nextData := by
  refine .pass (by simp [Call.Crashes]) rfl rfl (simulates_outbox .nextData ?_)
  obtain ⟨inbox, ⟨frames⟩⟩ := h
  cases frames with
  | nil => exact .empty .nil
  | cons f fs => exact .pop .nil

theorem enqueue_of_encode {message : Message} {j : Json} (hj : message.encode P = .ok j) :
    (h.outbox.enqueue P message : Outcome Empty Outbox) =
      .ok ⟨h.outbox.frames ++ [.text (P.renderJson j)]⟩ := by
  simp [Outbox.enqueue, Message.toFrame, hj]

theorem enqueue_panic {message : Message} (hj : ¬ ∃ j, message.encode P = .ok j) :
    (h.outbox.enqueue P message : Outcome Empty Outbox) = .panic := by
  have hpanic : (message.toFrame P : Outcome Empty Frame) = .panic := by
    rw [Message.toFrame]
    cases hm : message.encode P with
    | ok j => exact absurd ⟨j, hm⟩ hj
    | _ => rfl
  rw [Outbox.enqueue, hpanic]
  rfl

theorem runs_enqueue {message : Message} {j : Json} (hj : message.encode P = .ok j) :
    QueueOp.Runs h.payloads [.push (text P message)]
      ((h.outbox.frames ++ [Frame.text (P.renderJson j)]).map Frame.intoData) := by
  rw [List.map_append, text, hj]
  exact .push .nil

theorem steps (c : Call) : Steps P h c := by
  cases c with
  | handle m =>
    exact .pass (by simp [Call.Crashes]) rfl rfl (simulates_inbox .handle rfl (.push .nil))
  | nextMessage => exact steps_nextMessage
  | nextEvent => exact steps_nextEvent
  | nextData => exact steps_nextData
  | enqueue m =>
    by_cases hj : ∃ j, m.encode P = .ok j
    · obtain ⟨j, hj⟩ := hj
      exact .pass (not_not.mpr ⟨j, hj⟩) (by rw [step, enqueue_of_encode hj]; rfl) rfl
        (simulates_outbox .enqueue (runs_enqueue hj))
    · exact .crash hj (by rw [step, enqueue_panic hj]; rfl)
  | enqueueEvent topic event =>
    by_cases hj : ∃ j, (Message.dataMessage topic (.event event)).encode P = .ok j
    · obtain ⟨j, hj⟩ := hj
      exact .pass (not_not.mpr ⟨j, hj⟩)
        (by rw [step, Outbox.enqueueEvent, Message.newData_eq, enqueue_of_encode hj]; rfl) rfl
        (simulates_outbox .enqueueEvent (runs_enqueue hj))
    · exact .crash hj (by rw [step, Outbox.enqueueEvent, Message.newData_eq, enqueue_panic hj]; rfl)

theorem run_simulates (calls : List Call) :
    (∃ c ∈ calls, c.Crashes P) ∧ h.run P calls = .panic ∨ (∀ c ∈ calls, ¬ c.Crashes P) ∧
      ∃ trace h', h.run P calls = .ok (trace, h') ∧ trace.map Step.call = calls ∧
        Simulates P h trace h' := by
  induction calls generalizing h with
  | nil => exact .inr ⟨by simp, [], h, rfl, rfl, .refl h⟩
  | cons c calls ih =>
    rcases steps (P := P) (h := h) c with ⟨hc, hstep⟩ | @⟨s, h1, hc, hstep, hcall, hsim⟩
    · exact .inl ⟨⟨c, by simp, hc⟩, by simp [run, hstep]⟩
    · rcases ih (h := h1) with ⟨⟨c', hmem, hc'⟩, hpanic⟩ | ⟨hcs, trace, h', hrun, hcalls, hsim'⟩
      · exact .inl ⟨⟨c', by simp [hmem], hc'⟩, by simp [run, hstep, hpanic]⟩
      · refine .inr ⟨List.forall_mem_cons.mpr ⟨hc, hcs⟩, s :: trace, h', ?_, by simp [hcall, hcalls],
          hsim.cons hsim'⟩
        rw [run, hstep, Outcome.ok_bind]
        simp only [hrun, Outcome.ok_bind, Outcome.pure_def]

end

/-! The history of the calls, as their caller sees it. -/

/-- The events among messages. -/
def events (ms : List Message) : List (String × Event) := ms.filterMap Message.event?

theorem events_append (ms ms' : List Message) : events (ms ++ ms') = events ms ++ events ms' :=
  List.filterMap_append

theorem events_skipped {skipped : List Message} (hs : ∀ m ∈ skipped, m.event? = none) :
    events skipped = [] := List.filterMap_eq_nil_iff.mpr hs

section
variable {P : Platform} {trace : List Step} {opss : List (List (QueueOp Message))}

theorem Step.Does.seen {s : Step} {ops : List (QueueOp Message)} (hd : s.Does ops) :
    events (QueueOp.popped ops) = events s.seen ∧ s.seen.Sublist (QueueOp.popped ops) ∧
      QueueOp.pushed ops = s.handled := by
  cases hd with
  | found hs =>
    simp only [QueueOp.popped_append, QueueOp.pushed_append, QueueOp.popped_pops, QueueOp.pushed_pops,
      events_append, events_skipped hs]
    exact ⟨rfl, List.sublist_append_right _ _, rfl⟩
  | dry hs =>
    simp only [QueueOp.popped_append, QueueOp.pushed_append, QueueOp.popped_pops, QueueOp.pushed_pops,
      events_append, events_skipped hs]
    exact ⟨rfl, List.nil_sublist _, rfl⟩
  | nextMessage => exact ⟨by simp [QueueOp.popped, Step.seen], by simp [QueueOp.popped, Step.seen], rfl⟩
  | _ => exact ⟨rfl, List.Sublist.refl _, rfl⟩

/-- What was taken out of the inbox, but for messages that are no events, was seen. -/
theorem seen_of_does (hd : List.Forall₂ Step.Does trace opss) :
    events (QueueOp.popped opss.flatten) = events (trace.flatMap Step.seen) ∧
      (trace.flatMap Step.seen).Sublist (QueueOp.popped opss.flatten) ∧
      QueueOp.pushed opss.flatten = trace.flatMap Step.handled := by
  induction hd with
  | nil => exact ⟨rfl, List.Sublist.refl _, rfl⟩
  | cons hs _ ih =>
    obtain ⟨h1, h2, h3⟩ := hs.seen
    obtain ⟨ih1, ih2, ih3⟩ := ih
    simp only [List.flatten_cons, List.flatMap_cons, QueueOp.popped_append, QueueOp.pushed_append,
      events_append]
    exact ⟨by rw [h1, ih1], h2.append ih2, by rw [h3, ih3]⟩

theorem popped_outOps : QueueOp.popped (trace.flatMap (Step.outOps P)) = trace.flatMap Step.handed := by
  induction trace with
  | nil => rfl
  | cons s trace ih =>
    rw [List.flatMap_cons, QueueOp.popped_append, ih, List.flatMap_cons]
    cases s <;> simp [Step.outOps, QueueOp.popped, Step.handed]

theorem pushed_outOps :
    QueueOp.pushed (trace.flatMap (Step.outOps P)) = trace.flatMap (Step.enqueued P) := by
  induction trace with
  | nil => rfl
  | cons s trace ih =>
    rw [List.flatMap_cons, QueueOp.pushed_append, ih, List.flatMap_cons]
    cases s <;> simp [Step.outOps, QueueOp.pushed, Step.enqueued]

end

/-- What a program sees of the two halves, which start with messages and payloads of the binding. -/
structure History (P : Platform) (messages : List Message) (payloads : List ByteArray)
    (trace : List Step) (h : Halves) : Prop where
  outgoing : trace.flatMap Step.handed ++ h.payloads = payloads ++ trace.flatMap (Step.enqueued P)
  outgoing_none : ∀ pre post, trace = pre ++ .nextData none :: post →
    pre.flatMap Step.handed = payloads ++ pre.flatMap (Step.enqueued P)
  /-- no event is lost, whichever call asks for it -/
  events : events (trace.flatMap Step.seen ++ h.inbox.messages) =
    events (messages ++ trace.flatMap Step.handled)
  /-- nothing is doubled or reordered -/
  inOrder : (trace.flatMap Step.seen ++ h.inbox.messages).Sublist
    (messages ++ trace.flatMap Step.handled)
  /-- there is nothing to see only when all events have been seen -/
  none_left : ∀ pre s post, trace = pre ++ s :: post → s = .nextMessage none ∨ s = .nextEvent none →
    Halves.events (pre.flatMap Step.seen) = Halves.events (messages ++ pre.flatMap Step.handled)

theorem Simulates.history {P : Platform} {start h : Halves} {trace : List Step}
    (hs : Simulates P start trace h) : History P start.inbox.messages start.payloads trace h where
  outgoing := by
    rw [← popped_outOps (P := P), ← pushed_outOps, hs.outgoing.conserve]
  outgoing_none pre post heq := by
    subst heq
    have hruns := hs.outgoing
    rw [List.flatMap_append, List.flatMap_cons] at hruns
    rw [← popped_outOps (P := P), ← pushed_outOps]
    exact hruns.exhausted
  events := by
    obtain ⟨opss, hdoes, hruns⟩ := hs.incoming
    obtain ⟨hseen, -, hhandled⟩ := seen_of_does hdoes
    rw [events_append, ← hseen, ← events_append, hruns.conserve, hhandled]
  inOrder := by
    obtain ⟨opss, hdoes, hruns⟩ := hs.incoming
    obtain ⟨-, hsub, hhandled⟩ := seen_of_does hdoes
    rw [← hhandled, ← hruns.conserve]
    exact hsub.append (List.Sublist.refl _)
  none_left pre s post heq hnone := by
    subst heq
    obtain ⟨opss, hdoes, hruns⟩ := hs.incoming
    obtain ⟨opss1, opss2, hdoes1, hdoes2, rfl⟩ : ∃ a b, List.Forall₂ Step.Does pre a ∧
        List.Forall₂ Step.Does (s :: post) b ∧ opss = a ++ b :=
      ⟨_, _, (List.forall₂_take_append _ _ _ hdoes.flip).flip,
        (List.forall₂_drop_append _ _ _ hdoes.flip).flip,
        (List.take_append_drop pre.length opss).symm⟩
    obtain ⟨hseen, -, hhandled⟩ := seen_of_does hdoes1
    cases hdoes2 with
    | @cons _ ops _ opss3 hd _ =>
      obtain ⟨skipped, hskipped, rfl⟩ : ∃ skipped, (∀ m ∈ skipped, m.event? = none) ∧
          ops = QueueOp.pops skipped ++ [.pop none] := by
        rcases hnone with rfl | rfl
        · cases hd
          exact ⟨[], by simp, rfl⟩
        · cases hd with
          | dry hs => exact ⟨_, hs, rfl⟩
      have hflat : (opss1 ++ (QueueOp.pops skipped ++ [.pop none]) :: opss3).flatten =
          (opss1.flatten ++ QueueOp.pops skipped) ++ .pop none :: opss3.flatten := by simp
      rw [hflat] at hruns
      have hall := hruns.exhausted
      rw [QueueOp.popped_append, QueueOp.pushed_append, QueueOp.popped_pops, QueueOp.pushed_pops,
        List.append_nil, hhandled] at hall
      rw [← hall, events_append, events_skipped hskipped, List.append_nil, hseen]

end Halves

theorem Binding.encodes_of_run {P : Platform} {b b' : Binding} {calls : List Call} {trace : List Step}
    (h : b.run P calls = .ok (trace, b')) : ∀ topic event, .publishEvent topic event ∈ calls →
      ∃ j, (Message.dataMessage topic (.event event)).encode P = .ok j := by
  induction calls generalizing b trace with
  | nil => simp
  | cons c calls ih =>
    obtain ⟨⟨s, b1⟩, hs, h⟩ := Outcome.bind_eq_ok.mp h
    obtain ⟨⟨t, b2⟩, ht, h⟩ := Outcome.bind_eq_ok.mp h
    obtain ⟨rfl, rfl⟩ := Prod.mk.inj (Outcome.ok.inj h)
    intro topic event hmem
    rcases List.mem_cons.mp hmem with rfl | hmem
    · cases hj : (Message.dataMessage topic (.event event)).encode P with
      | ok j => exact ⟨j, rfl⟩
      | _ => simp [step, publishEvent, enqueue, Outbox.enqueue, Message.toFrame, hj] at hs
    · exact ih ht topic event hmem

/-- The events that a binding delivered or took in. -/
def okEvents (ds : List (Except ProtocolError (String × Event))) : List (String × Event) :=
  ds.filterMap Except.toOption

theorem okEvents_deliveries (b : Binding) : okEvents b.deliveries = Halves.events b.inbox.messages := by
  rw [okEvents, Binding.deliveries, List.filterMap_filterMap, Halves.events]
  congr 1
  funext m
  cases m with
  | dataMessage topic data => cases data <;> rfl
  | _ => rfl

/-- What went through a binding and then through its halves. -/
structure Through (P : Platform) (subscriptions : Subscriptions) (trace : List Step)
    (trace' : List Halves.Step) (h : Halves) : Prop where
  outgoing : handedOut trace ++ trace'.flatMap Halves.Step.handed ++ h.payloads =
    subscriptions.payload P :: published P trace ++ trace'.flatMap (Halves.Step.enqueued P)
  events : okEvents (delivered trace) ++ Halves.events (trace'.flatMap Halves.Step.seen ++ h.inbox.messages) =
    okEvents (accepted trace) ++ Halves.events (trace'.flatMap Halves.Step.handled)

/-- After any calls on a binding, any calls on its halves crash at one that crashes, or go on with the
two queues of the binding where it left them. -/
theorem split_history (P : Platform) (subscriptions : Subscriptions) (calls : List Call)
    (trace : List Step) (b : Binding) (hrun : (Binding.new P subscriptions).run P calls = .ok (trace, b))
    (calls' : List Halves.Call) :
    (∃ c ∈ calls', c.Crashes P) ∧ b.halves.run P calls' = .panic ∨
      (∀ c ∈ calls', ¬ c.Crashes P) ∧
      ∃ trace' h, b.halves.run P calls' = .ok (trace', h) ∧ trace'.map Halves.Step.call = calls' ∧
        Halves.History P b.inbox.messages b.payloads trace' h ∧
        Through P subscriptions trace trace' h := by
  rcases Halves.run_simulates (h := b.halves) calls' with hcrash | ⟨hcs, trace', h, hrun', hcalls, hsim⟩
  · exact .inl hcrash
  · have hist : Halves.History P b.inbox.messages b.payloads trace' h := hsim.history
    refine .inr ⟨hcs, trace', h, hrun', hcalls, hist, ?_⟩
    obtain ⟨_, _, hrun2, -, hsim2, hv⟩ := Binding.run_simulates (b := Binding.new P subscriptions)
      (by simp [Binding.Coherent, Binding.new]) calls (Binding.encodes_of_run hrun)
    obtain ⟨rfl, rfl⟩ := Prod.mk.inj (Outcome.ok.inj (hrun.symm.trans hrun2))
    have hqueues := TwoQueues.of_simulates hsim2 hv
    refine ⟨?_, ?_⟩
    · rw [List.append_assoc, hist.outgoing, ← List.append_assoc, hqueues.outgoing]
    · rw [hist.events, Halves.events_append, ← okEvents_deliveries, ← List.append_assoc]
      congr 1
      rw [okEvents, okEvents, ← List.filterMap_append, hqueues.incoming]
      rfl

def ping (n : UInt64) : Event := .new "ping" [.count n]

/-- Two pings of which one is received. -/
def pingCalls : List Call :=
  [.handleIncoming (.newData "/ping" (ping 1)), .handleIncoming (.newData "/ping" (ping 2)), .receiveEvent]

def halvesCalls : List Halves.Call :=
  [.handle (.error "code" "context"), .handle (.newData "/ping" (ping 3)), .nextEvent,
    .enqueueEvent "/ping" (ping 4), .nextData, .nextEvent, .nextEvent]

theorem pings_through : ∃ trace b trace' h,
    (Binding.new Sample.utcPlatform ⟨["/ping"]⟩).run Sample.utcPlatform pingCalls = .ok (trace, b) ∧
      b.halves.run Sample.utcPlatform halvesCalls = .ok (trace', h) ∧
      Through Sample.utcPlatform ⟨["/ping"]⟩ trace trace' h := by
  obtain ⟨trace, b, hrun, out, hout⟩ : ∃ trace b,
      (Binding.new Sample.utcPlatform ⟨["/ping"]⟩).run Sample.utcPlatform pingCalls = .ok (trace, b) ∧
        ∃ out, b.halves.run Sample.utcPlatform halvesCalls = .ok out := ⟨_, _, rfl, _, rfl⟩
  rcases split_history Sample.utcPlatform ⟨["/ping"]⟩ pingCalls trace b hrun halvesCalls with
    ⟨-, hpanic⟩ | ⟨-, trace', h, hrun', -, -, hthrough⟩
  · exact absurd (hout.symm.trans hpanic) (by simp)
  · exact ⟨trace, b, trace', h, hrun, hrun', hthrough⟩

end ZWS
