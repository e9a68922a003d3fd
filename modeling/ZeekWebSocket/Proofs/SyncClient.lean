import ZeekWebSocket.Spec.Client
import ZeekWebSocket.Sanity.Sample

/-! The synchronous client reads one frame for each `receive`. It is in step with the server
unless its first frame was an event or an error, which it takes for the acknowledgement. -/

namespace ZWS.Python

open Base

namespace Client

variable {P : Platform} {c : Client}

/-- Acknowledged, and nothing waits to be received. -/
def InStep (c : Client) : Prop := c.binding.state = .subscribed ∧ c.binding.inbox.messages = []

/-- What a subscribed client says to a message: its event or its error, or why it refuses it. -/
def answer : Message → Except PyErr (Option (String × Event))
  | .dataMessage topic (.event event) => .ok (some (topic, event))
  | .error code context => .error (.notReceived (.zeekError code context))
  | .ack _ _ => .error (.notHandled .alreadySubscribed)
  | .dataMessage _ (.other v) => .error (.notHandled (.unexpectedEventPayload v))

/-- What `receive` reports if it looks at nothing but its own frame. -/
def report (P : Platform) : Option ByteArray → Except PyErr (Option (String × Event))
  | none => .error .connection
  | some data =>
    match Message.fromBytes P data with
    | .err e => .error (.notUnderstood e)
    | .panic => .error .panic
    | .ok message => answer message

theorem flush_keeps (fuel sends : ℕ) (b : Binding) :
    (flush fuel sends b).2.state = b.state ∧ (flush fuel sends b).2.inbox = b.inbox := by
  induction fuel generalizing sends b with
  | zero => exact ⟨rfl, rfl⟩
  | succ fuel ih =>
    have hout : b.outgoing.2.state = b.state ∧ b.outgoing.2.inbox = b.inbox := ⟨rfl, rfl⟩
    unfold flush
    split
    · next h => rw [h] at hout; exact hout
    · next data b' h =>
      rw [h] at hout
      split
      · exact hout
      · cases sends with
        | zero => exact hout
        | succ sends => exact ⟨(ih sends b').1.trans hout.1, (ih sends b').2.trans hout.2⟩

theorem publishEvent_keeps (b : Binding) (topic : String) (event : Event) :
    (ProtocolBinding.publishEvent P b topic event).2.state = b.state ∧
      (ProtocolBinding.publishEvent P b topic event).2.inbox = b.inbox := by
  unfold ProtocolBinding.publishEvent
  split
  · next b' h =>
    obtain ⟨o, -, hb⟩ := Outcome.bind_eq_ok.mp h
    obtain rfl := Outcome.ok.inj hb
    exact ⟨rfl, rfl⟩
  · exact ⟨rfl, rfl⟩

/-- Publishing leaves the receiving side alone, also where it raises. -/
theorem publish_inStep (h : c.InStep) (topic : String) (event : Event) (sends : ℕ) :
    (c.publish P topic event sends).2.InStep := by
  obtain ⟨hstate, hinbox⟩ := publishEvent_keeps (P := P) c.binding topic event
  unfold publish
  split
  · next e b hb =>
    rw [hb] at hstate hinbox
    exact ⟨hstate.trans h.1, by rw [hinbox, h.2]⟩
  · next b hb =>
    rw [hb] at hstate hinbox
    obtain ⟨hs, hi⟩ := flush_keeps (b.outbox.frames.length + 1) sends b
    have hempty : b.inbox = c.binding.inbox := hinbox
    exact ⟨(hs.trans hstate).trans h.1, by simp only [flushAll, hi, hempty, h.2]⟩

/-- A client that is in step reports the frame it reads and is in step again. -/
theorem receive_inStep (h : c.InStep) (recv : Option ByteArray) :
    (c.receive P recv).1 = report P recv ∧ (c.receive P recv).2.InStep := by
  obtain ⟨⟨state, ⟨messages⟩, outbox⟩⟩ := c
  obtain ⟨rfl, rfl⟩ := h
  cases recv with
  | none => exact ⟨rfl, rfl, rfl⟩
  | some data =>
    simp only [receive, ProtocolBinding.handleIncoming, report]
    cases hm : Message.fromBytes P data with
    | err e => exact ⟨rfl, rfl, rfl⟩
    | panic => exact ⟨rfl, rfl, rfl⟩
    | ok message =>
      cases message with
      | ack endpoint version => exact ⟨rfl, rfl, rfl⟩
      | error code context => exact ⟨rfl, rfl, rfl⟩
      | dataMessage topic data => cases data <;> exact ⟨rfl, rfl, rfl⟩

theorem step_inStep (h : c.InStep) (call : Call) : (c.step P call).InStep := by
  cases call with
  | publish topic event sends => exact publish_inStep h topic event sends
  | receive recv => exact (receive_inStep h recv).2

theorem foldl_inStep (h : c.InStep) (calls : List Call) : (calls.foldl (step P) c).InStep := by
  induction calls generalizing c with
  | nil => exact h
  | cons call calls ih => exact ih (step_inStep h call)

/-- The acknowledgement was handled and nothing waits, and whatever is done with the client, each
`receive` reports its own frame and leaves nothing behind. -/
def NeverDelays (P : Platform) (c : Client) : Prop :=
  c.InStep ∧ ∀ (calls : List Call) (recv : Option ByteArray),
    ((calls.foldl (step P) c).receive P recv).1 = report P recv ∧
    ((calls.foldl (step P) c).receive P recv).2.binding.inbox.messages = []

theorem neverDelays_iff : NeverDelays P c ↔ c.InStep := by
  refine ⟨fun h => h.1, fun h => ⟨h, fun calls recv => ?_⟩⟩
  obtain ⟨hreport, hstep⟩ := receive_inStep (foldl_inStep h calls) recv
  exact ⟨hreport, hstep.2⟩

/-- A message that waits in the inbox until it is received. -/
def Waits : Message → Prop
  | .dataMessage _ (.event _) => True
  | .error _ _ => True
  | _ => False

/-- The subscription is sent and the first frame is handled. -/
theorem init_eq_ok {topics : List String} {connected : Bool} {sends : ℕ} {recv : Option ByteArray} :
    init P topics connected sends recv = .ok c ↔
      connected = true ∧ (flushAll sends (.new P ⟨topics⟩)).1 = .ok () ∧
      ∃ ack, recv = some ack ∧
        ProtocolBinding.handleIncoming P (flushAll sends (.new P ⟨topics⟩)).2 ack =
          (.ok (), c.binding) := by
  obtain ⟨binding⟩ := c
  unfold init
  cases connected with
  | false => simp
  | true =>
    cases hf : flushAll sends (.new P ⟨topics⟩) with
    | mk r b =>
      cases r with
      | error e => simp [hf]
      | ok u =>
        cases recv with
        | none => simp [hf]
        | some ack =>
          cases hh : ProtocolBinding.handleIncoming P b ack with
          | mk r b' => cases r <;> simp [hf, hh]

/-- A fresh binding takes an acknowledgement in, keeps what waits, and refuses the rest. -/
theorem handleIncoming_first {b b' : Binding} (hs : b.state = .subscribing)
    (hi : b.inbox.messages = []) {data : ByteArray}
    (h : ProtocolBinding.handleIncoming P b data = (.ok (), b')) :
    InStep ⟨b'⟩ ↔ ¬ ∃ m, Message.fromBytes P data = .ok m ∧ Waits m := by
  obtain ⟨state, ⟨messages⟩, outbox⟩ := b
  obtain rfl : state = .subscribing := hs
  obtain rfl : messages = [] := hi
  unfold ProtocolBinding.handleIncoming at h
  cases hm : Message.fromBytes P data with
  | err e => simp [hm] at h
  | panic => simp [hm] at h
  | ok message =>
    cases message with
    | ack endpoint version =>
      obtain rfl : _ = b' := by simpa [hm, Binding.handleIncoming] using h
      simp [InStep, Waits]
    | error code context =>
      obtain rfl : _ = b' := by simpa [hm, Binding.handleIncoming] using h
      simp [InStep, Waits]
    | dataMessage topic data =>
      cases data with
      | event e =>
        obtain rfl : _ = b' := by simpa [hm, Binding.handleIncoming] using h
        simp [InStep, Waits]
      | other v => simp [hm, Binding.handleIncoming] at h

/-- A message that waits is taken in whatever the state. -/
theorem handleIncoming_waits {b : Binding} {data : ByteArray} {m : Message}
    (hm : Message.fromBytes P data = .ok m) (hw : Waits m) :
    ∃ b', ProtocolBinding.handleIncoming P b data = (.ok (), b') := by
  unfold ProtocolBinding.handleIncoming
  rw [hm]
  cases m with
  | ack endpoint version => exact hw.elim
  | error code context => exact ⟨_, rfl⟩
  | dataMessage topic data =>
    cases data with
    | event e => exact ⟨_, rfl⟩
    | other v => exact hw.elim

/-- The subscription is one frame. -/
theorem flushAll_new (topics : List String) : (flushAll 1 (.new P ⟨topics⟩)).1 = .ok () := by
  simp only [flushAll, Binding.new, List.length_singleton, flush, Binding.outgoing, Outbox.nextData]
  split <;> rfl

theorem never_delays_iff (P : Platform) (topics : List String) (recv : Option ByteArray) :
    (∀ connected sends c, init P topics connected sends recv = .ok c → NeverDelays P c) ↔
      ¬ ∃ data m, recv = some data ∧ Message.fromBytes P data = .ok m ∧ Waits m := by
  have hnew : ∀ sends, (flushAll sends (.new P ⟨topics⟩)).2.state = .subscribing ∧
      (flushAll sends (.new P ⟨topics⟩)).2.inbox.messages = [] := fun sends =>
    have h := flush_keeps _ sends (Binding.new P ⟨topics⟩)
    ⟨h.1, congrArg Inbox.messages h.2⟩
  refine ⟨?_, ?_⟩
  · rintro h ⟨data, m, rfl, hm, hw⟩
    obtain ⟨b, hb⟩ := handleIncoming_waits (b := (flushAll 1 (.new P ⟨topics⟩)).2) hm hw
    have hstep := (h true 1 ⟨b⟩ (init_eq_ok.mpr ⟨rfl, flushAll_new topics, data, rfl, hb⟩)).1
    exact (handleIncoming_first (hnew 1).1 (hnew 1).2 hb).mp hstep ⟨m, hm, hw⟩
  · intro h connected sends c hc
    obtain ⟨-, -, ack, rfl, hb⟩ := init_eq_ok.mp hc
    refine neverDelays_iff.mpr ((handleIncoming_first (hnew sends).1 (hnew sends).2 hb).mpr ?_)
    rintro ⟨m, hm, hw⟩
    exact h ⟨ack, m, rfl, hm, hw⟩

/-- The server sends an event, then an error. No acknowledgement was handled, and the error is
reported as the event that came before it. -/
theorem eager_delayed :
    ∃ c, init Sample.serverPlatform ["/ping"] true 1 (some (Sample.frame 2).intoData) = .ok c ∧
      c.binding.state = .subscribing ∧ c.binding.inbox.messages ≠ [] ∧
      (c.receive Sample.serverPlatform (some (Sample.frame 1).intoData)).1 =
        .ok (some ("/ping", .new "ping" [])) ∧
      ¬ NeverDelays Sample.serverPlatform c := by
  refine ⟨⟨.subscribing, ⟨[.newData "/ping" (.new "ping" [])]⟩, ⟨[]⟩⟩,
    rfl, rfl, by simp, rfl, ?_⟩
  rintro ⟨⟨hstate, -⟩, -⟩
  cases hstate

end Client

end ZWS.Python
