import ZeekWebSocket.Spec.Binding

/-! What each call does to the two queues of a binding and to its flag. -/

namespace ZWS

open Base

/-- What `receive_event` makes of a message it may find: an event or an error of the peer. -/
def Message.delivery : Message → Option (Except ProtocolError (String × Event))
  | .dataMessage topic (.event event) => some (.ok (topic, event))
  | .error code context => some (.error (.zeekError code context))
  | _ => none

def Message.isAck : Message → Bool
  | .ack _ _ => true
  | _ => false

/-- The payload of the subscription, the topics as a JSON array. -/
def Subscriptions.payload (P : Platform) (s : Subscriptions) : ByteArray :=
  (P.renderJson (.arr (s.topics.map .str))).toUTF8

/-- The payload of a published event. -/
def payload (P : Platform) (topic : String) (event : Event) : ByteArray :=
  match (Message.dataMessage topic (.event event)).encode P with
  | .ok j => (P.renderJson j).toUTF8
  | _ => .empty

namespace Binding

def deliveries (b : Binding) : List (Except ProtocolError (String × Event)) :=
  b.inbox.messages.filterMap Message.delivery

def payloads (b : Binding) : List ByteArray := b.outbox.frames.map Frame.intoData

/-- Only deliverable messages wait in the inbox. -/
def Coherent (b : Binding) : Prop := ∀ m ∈ b.inbox.messages, m.delivery.isSome

/-- What `handle_incoming` returns, by whether an acknowledgement came before. -/
def verdict (acknowledged : Bool) : Message → Except ProtocolError Unit
  | .ack _ _ => if acknowledged then .error .alreadySubscribed else .ok ()
  | .dataMessage _ (.other v) => .error (.unexpectedEventPayload v)
  | _ => .ok ()

def acknowledged (b : Binding) : Bool := b.state = .subscribed

/-- A delivery as `receive_event` returns it. -/
def returned : Except ProtocolError (String × Event) → Outcome ProtocolError (Option (String × Event))
  | .ok e => .ok (some e)
  | .error e => .err e

section
variable {P : Platform} {b b' : Binding}

theorem handleIncoming_verdict (b : Binding) (m : Message) :
    (b.handleIncoming m).1 = verdict b.acknowledged m := by
  obtain ⟨state, inbox, outbox⟩ := b
  cases m with
  | ack endpoint version => cases state <;> rfl
  | error code context => rfl
  | dataMessage topic data => cases data <;> rfl

/-- An accepted message is queued if it can be delivered, and remembered if it is an
acknowledgement. -/
theorem handleIncoming_ok {m : Message} (h : b.handleIncoming m = (.ok (), b')) :
    b'.deliveries = b.deliveries ++ m.delivery.toList ∧ b'.outbox = b.outbox ∧
      b'.acknowledged = (b.acknowledged || m.isAck) ∧ (b.Coherent → b'.Coherent) := by
  obtain ⟨state, inbox, outbox⟩ := b
  have handled : ∀ d, m.delivery = some d → m.isAck = false → b' = ⟨state, inbox.handle m, outbox⟩ →
      b'.deliveries = deliveries ⟨state, inbox, outbox⟩ ++ m.delivery.toList ∧ b'.outbox = outbox ∧
        b'.acknowledged = (acknowledged ⟨state, inbox, outbox⟩ || m.isAck) ∧
        (Coherent ⟨state, inbox, outbox⟩ → b'.Coherent) := by
    rintro d hd hack rfl
    refine ⟨by simp [deliveries, Inbox.handle, List.filterMap_append, hd], rfl,
      by simp [acknowledged, hack], fun hb m' hm' => ?_⟩
    rcases List.mem_append.mp hm' with hm' | hm'
    · exact hb m' hm'
    · rw [List.mem_singleton.mp hm', hd]
      rfl
  cases m with
  | ack endpoint version =>
    cases state with
    | subscribing =>
      obtain rfl : _ = b' := (Prod.mk.inj h).2
      exact ⟨by simp [deliveries, Message.delivery], rfl, rfl, id⟩
    | subscribed => simp [handleIncoming] at h
  | error code context => exact handled _ rfl rfl (Prod.mk.inj h).2.symm
  | dataMessage topic data =>
    cases data with
    | event event => exact handled _ rfl rfl (Prod.mk.inj h).2.symm
    | other v => simp [handleIncoming] at h

/-- A rejected message is a second acknowledgement or data that is no event, and changes nothing. -/
theorem handleIncoming_error {m : Message} {e : ProtocolError} (h : b.handleIncoming m = (.error e, b')) :
    b' = b ∧ (m.isAck = true ∧ b.acknowledged = true ∧ e = .alreadySubscribed ∨
      ∃ topic v, m = .dataMessage topic (.other v) ∧ e = .unexpectedEventPayload v) := by
  obtain ⟨state, inbox, outbox⟩ := b
  cases m with
  | ack endpoint version =>
    cases state with
    | subscribing => simp [handleIncoming] at h
    | subscribed =>
      obtain ⟨he, rfl⟩ := Prod.mk.inj h
      exact ⟨rfl, .inl ⟨rfl, rfl, (Except.error.inj he).symm⟩⟩
  | error code context => simp [handleIncoming] at h
  | dataMessage topic data =>
    cases data with
    | event event => simp [handleIncoming] at h
    | other v =>
      obtain ⟨he, rfl⟩ := Prod.mk.inj h
      exact ⟨rfl, .inr ⟨topic, v, rfl, (Except.error.inj he).symm⟩⟩

theorem outgoing_some {data : ByteArray} (h : b.outgoing = (some data, b')) :
    b.payloads = data :: b'.payloads ∧ b' = { b with outbox := b'.outbox } := by
  obtain ⟨state, inbox, ⟨frames⟩⟩ := b
  cases frames with
  | nil => simp [outgoing, Outbox.nextData] at h
  | cons f fs =>
    obtain ⟨hdata, rfl⟩ := Prod.mk.inj h
    obtain rfl := Option.some.inj hdata
    exact ⟨rfl, rfl⟩

theorem outgoing_none (h : b.outgoing = (none, b')) : b.payloads = [] ∧ b' = b := by
  obtain ⟨state, inbox, ⟨frames⟩⟩ := b
  cases frames with
  | nil => exact ⟨rfl, (Prod.mk.inj h).2.symm⟩
  | cons f fs => simp [outgoing, Outbox.nextData] at h

theorem publishEvent_of_encode {ε : Type} {topic : String} {event : Event} {j : Json}
    (hj : (Message.dataMessage topic (.event event)).encode P = .ok j) :
    (b.publishEvent P topic event : Outcome ε Binding) =
      .ok { b with outbox := ⟨b.outbox.frames ++ [.text (P.renderJson j)]⟩ } := by
  simp [publishEvent, enqueue, Outbox.enqueue, Message.toFrame, hj]

theorem publishEvent_ok {ε : Type} {topic : String} {event : Event}
    (h : b.publishEvent P topic event = (.ok b' : Outcome ε Binding)) :
    b'.payloads = b.payloads ++ [payload P topic event] ∧ b' = { b with outbox := b'.outbox } := by
  cases hj : (Message.dataMessage topic (.event event)).encode P with
  | ok j =>
    rw [publishEvent_of_encode hj] at h
    obtain rfl := Outcome.ok.inj h
    exact ⟨by simp [payloads, payload, hj, Frame.intoData], rfl⟩
  | _ => simp [publishEvent, enqueue, Outbox.enqueue, Message.toFrame, hj] at h

theorem receiveEvent_empty (h : b.inbox.messages = []) : b.receiveEvent = (.ok none, b) := by
  obtain ⟨state, ⟨messages⟩, outbox⟩ := b
  obtain rfl : messages = [] := h
  rfl

/-- Receiving touches the inbox alone. -/
theorem receiveEvent_frame {r : Outcome ProtocolError (Option (String × Event))}
    (h : b.receiveEvent = (r, b')) : b' = { b with inbox := b'.inbox } := by
  obtain ⟨state, ⟨messages⟩, outbox⟩ := b
  have hb' : ∃ inbox, b' = ⟨state, inbox, outbox⟩ := by
    cases messages with
    | nil => exact ⟨_, (Prod.mk.inj h).2.symm⟩
    | cons m ms =>
      cases m with
      | dataMessage topic data => cases data <;> exact ⟨_, (Prod.mk.inj h).2.symm⟩
      | _ => exact ⟨_, (Prod.mk.inj h).2.symm⟩
  obtain ⟨inbox, rfl⟩ := hb'
  rfl

/-- A coherent inbox never takes `receive_event` to an `unreachable!()`: nothing waits, or the
first delivery is returned. -/
theorem receiveEvent_cases (hb : b.Coherent) :
    b.inbox.messages = [] ∧ b.receiveEvent = (.ok none, b) ∨
      ∃ d inbox, b.receiveEvent = (returned d, { b with inbox := inbox }) ∧
        b.deliveries = d :: deliveries { b with inbox := inbox } ∧
        Coherent { b with inbox := inbox } := by
  obtain ⟨state, ⟨messages⟩, outbox⟩ := b
  cases messages with
  | nil => exact .inl ⟨rfl, rfl⟩
  | cons m ms =>
    obtain ⟨hm, hms⟩ := List.forall_mem_cons.mp hb
    right
    cases m with
    | ack endpoint version => simp [Message.delivery] at hm
    | error code context => exact ⟨_, ⟨ms⟩, rfl, rfl, hms⟩
    | dataMessage topic data =>
      cases data with
      | event event => exact ⟨_, ⟨ms⟩, rfl, rfl, hms⟩
      | other v => simp [Message.delivery] at hm

theorem Coherent.inbox_nil (hb : b.Coherent) (h : b.deliveries = []) : b.inbox.messages = [] := by
  refine List.eq_nil_iff_forall_not_mem.mpr fun m hm => ?_
  have hnone : m.delivery = none := List.filterMap_eq_nil_iff.mp h m hm
  simpa [hnone] using hb m hm

theorem receiveEvent_ne_panic (hb : b.Coherent) : b.receiveEvent.1 ≠ .panic := by
  rcases receiveEvent_cases hb with ⟨-, h⟩ | ⟨d, inbox, h, -⟩
  · simp [h]
  · cases d <;> simp [h, returned]

theorem receiveEvent_none (hb : b.Coherent) (h : b.receiveEvent = (.ok none, b')) :
    b.inbox.messages = [] ∧ b' = b := by
  rcases receiveEvent_cases hb with ⟨hnil, h'⟩ | ⟨d, inbox, h', -⟩
  · exact ⟨hnil, (Prod.mk.inj (h.symm.trans h')).2⟩
  · have hr := (Prod.mk.inj (h.symm.trans h')).1
    cases d <;> simp [returned] at hr

theorem receiveEvent_returned (hb : b.Coherent) {d : Except ProtocolError (String × Event)}
    (h : b.receiveEvent = (returned d, b')) : b.deliveries = d :: b'.deliveries ∧ b'.Coherent := by
  rcases receiveEvent_cases hb with ⟨-, h'⟩ | ⟨d', inbox, h', hq, hcoh⟩
  · have hr := (Prod.mk.inj (h.symm.trans h')).1
    cases d <;> simp [returned] at hr
  · obtain ⟨hr, rfl⟩ := Prod.mk.inj (h.symm.trans h')
    obtain rfl : d = d' := by cases d <;> cases d' <;> simp_all [returned]
    exact ⟨hq, hcoh⟩

end

end Binding

end ZWS
