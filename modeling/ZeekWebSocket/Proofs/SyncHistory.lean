import ZeekWebSocket.Proofs.SyncClient
import ZeekWebSocket.Sanity.Binding

/-! Whole histories of the synchronous client, with what it sent and what it was told. Nothing
waits to be sent between two calls, and at most one message waits to be received. -/

namespace ZWS.Python

open Base

namespace Client

variable {P : Platform} {b b' : Binding} {c : Client}

/-- The loop sends what is queued up to the first `send` that raises, whose frame is gone. -/
theorem flush_eq (fuel sends : ℕ) (b : Binding) (hfuel : b.payloads.length < fuel)
    (hne : ∀ data ∈ b.payloads, data.isEmpty = false) :
    flushed fuel sends b =
        (b.payloads.take sends).map (⟨·, true⟩) ++
          ((b.payloads.drop sends).take 1).map (⟨·, false⟩) ∧
      (flush fuel sends b).1 = (if b.payloads.length ≤ sends then .ok () else .error .connection) ∧
      (flush fuel sends b).2.payloads = b.payloads.drop (sends + 1) := by
  induction fuel generalizing sends b with
  | zero => simp at hfuel
  | succ fuel ih =>
    unfold flushed flush
    split
    · next h =>
      obtain ⟨hnil, rfl⟩ := Binding.outgoing_none h
      simp [hnil]
    · next data b' h =>
      obtain ⟨hcons, -⟩ := Binding.outgoing_some h
      rw [hcons] at hfuel hne ⊢
      have hdata : data.isEmpty = false := hne data List.mem_cons_self
      rw [hdata]
      cases sends with
      | zero => simp
      | succ sends =>
        have hrest := ih sends b' (by simpa using hfuel) fun d hd => hne d (List.mem_cons_of_mem _ hd)
        simpa using hrest

theorem isEmpty_toUTF8 {s : String} (h : s ≠ "") : s.toUTF8.isEmpty = false := by
  simp [ByteArray.isEmpty, h]

/-- One frame is tried once, and nothing waits after it. -/
theorem flush_single {f : Frame} (hf : b.outbox.frames = [f]) (hne : f.intoData.isEmpty = false)
    (sends : ℕ) :
    flushed (b.outbox.frames.length + 1) sends b = [⟨f.intoData, decide (0 < sends)⟩] ∧
      (flushAll sends b).1 = (if 0 < sends then .ok () else .error .connection) ∧
      (flushAll sends b).2.payloads = [] := by
  have hp : b.payloads = [f.intoData] := by rw [Binding.payloads, hf, List.map_singleton]
  have hspec := flush_eq (b.outbox.frames.length + 1) sends b (by simp [Binding.payloads])
    (by simpa [hp] using hne)
  rw [hp] at hspec
  cases sends with
  | zero => simpa [flushAll] using hspec
  | succ sends => simpa [flushAll] using hspec

/-- What a frame tells: an event, an error of the server, or nothing. -/
def heard (P : Platform) : Option ByteArray → List (Except ProtocolError (String × Event))
  | none => []
  | some data =>
    match Message.fromBytes P data with
    | .ok message => message.delivery.toList
    | _ => []

def acks (P : Platform) : Option ByteArray → Bool
  | none => false
  | some data =>
    match Message.fromBytes P data with
    | .ok message => message.isAck
    | _ => false

/-- The event or the error of the server that a call reports. -/
def Done.told : Done → List (Except ProtocolError (String × Event))
  | .received _ (.ok (some e)) => [.ok e]
  | .received _ (.error (.notReceived e)) => [.error e]
  | _ => []

/-- A publish that looks at nothing but its own event. -/
def publishing (P : Platform) (topic : String) (event : Event) (sends : ℕ) : Done :=
  match (Message.dataMessage topic (.event event)).encode P with
  | .ok _ => .published [⟨payload P topic event, decide (0 < sends)⟩]
      (if 0 < sends then .ok () else .error .connection)
  | _ => .published [] (.error .panic)

/-- What is true between two calls. Only a client without an acknowledgement is behind, and by one
message. -/
structure Settled (b : Binding) : Prop where
  coherent : b.Coherent
  waiting : b.deliveries.length = if b.acknowledged then 0 else 1
  sent : b.payloads = []

theorem Settled.of_keeps (h : Settled b) (hstate : b'.state = b.state) (hinbox : b'.inbox = b.inbox)
    (hsent : b'.payloads = []) :
    Settled b' ∧ b'.deliveries = b.deliveries ∧ b'.acknowledged = b.acknowledged := by
  obtain ⟨state, inbox, outbox⟩ := b'
  obtain rfl : state = b.state := hstate
  obtain rfl : inbox = b.inbox := hinbox
  exact ⟨⟨h.coherent, h.waiting, hsent⟩, rfl, rfl⟩

theorem frames_eq_nil (h : b.payloads = []) : b.outbox.frames = [] := List.map_eq_nil_iff.mp h

/-- An event that has no text is neither sent nor kept. -/
theorem publish_refused (h : Settled c.binding) {topic : String} {event : Event}
    (hj : ∀ j, (Message.dataMessage topic (.event event)).encode P ≠ .ok j) (sends : ℕ) :
    c.done P (.publish topic event sends) = publishing P topic event sends ∧
      Settled (c.publish P topic event sends).2.binding ∧
      (c.publish P topic event sends).2.binding.deliveries = c.binding.deliveries ∧
      (c.publish P topic event sends).2.binding.acknowledged = c.binding.acknowledged := by
  have hout : ProtocolBinding.publishEvent P c.binding topic event = (.error .panic, c.binding) := by
    simp only [ProtocolBinding.publishEvent, Binding.publishEvent, Binding.enqueue, Outbox.enqueue,
      Message.toFrame, Message.newData_eq]
    cases hm : (Message.dataMessage topic (.event event)).encode P with
    | ok j => exact absurd hm (hj j)
    | _ => rfl
  have hdone : publishing P topic event sends = .published [] (.error .panic) := by
    unfold publishing
    split
    · next j hm => exact absurd hm (hj j)
    · rfl
  refine ⟨?_, ?_⟩
  · simp only [done, publishSent, publish, hout, hdone]
  · simp only [publish, hout]
    exact ⟨h, trivial, trivial⟩

/-- Whatever came before, a publish tries its own frame once and leaves nothing to send. -/
theorem publish_settled (hP : ∀ j, P.renderJson j ≠ "") (h : Settled c.binding) (topic : String)
    (event : Event) (sends : ℕ) :
    c.done P (.publish topic event sends) = publishing P topic event sends ∧
      Settled (c.publish P topic event sends).2.binding ∧
      (c.publish P topic event sends).2.binding.deliveries = c.binding.deliveries ∧
      (c.publish P topic event sends).2.binding.acknowledged = c.binding.acknowledged := by
  cases hj : (Message.dataMessage topic (.event event)).encode P with
  | ok j =>
    have hpub := Binding.publishEvent_of_encode (ε := Empty) (b := c.binding) hj
    rw [frames_eq_nil h.sent, List.nil_append] at hpub
    set b : Binding := { c.binding with outbox := ⟨[.text (P.renderJson j)]⟩ } with hb
    have hout : ProtocolBinding.publishEvent P c.binding topic event = (.ok (), b) := by
      rw [ProtocolBinding.publishEvent, hpub]
    obtain ⟨hsent, hr, hleft⟩ :=
      flush_single (b := b) (f := .text (P.renderJson j)) rfl (isEmpty_toUTF8 (hP j)) sends
    obtain ⟨hstate, hinbox⟩ := flush_keeps (b.outbox.frames.length + 1) sends b
    refine ⟨?_, ?_⟩
    · simp only [done, publishSent, publish, hout, hsent, hr, publishing, hj, payload, Frame.intoData]
    · simp only [publish, hout]
      exact h.of_keeps hstate hinbox hleft
  | err e => exact publish_refused h (by simp [hj]) sends
  | panic => exact publish_refused h (by simp [hj]) sends

/-- How a delivery is returned or raised. -/
def reported : Except ProtocolError (String × Event) → Except PyErr (Option (String × Event))
  | .ok e => .ok (some e)
  | .error e => .error (.notReceived e)

theorem receiveEvent_reported (hb : b.Coherent) {d : Except ProtocolError (String × Event)}
    {ds : List (Except ProtocolError (String × Event))} (hd : b.deliveries = d :: ds) :
    ∃ inbox, ProtocolBinding.receiveEvent b = (reported d, { b with inbox := inbox }) ∧
      Binding.deliveries { b with inbox := inbox } = ds ∧
      Binding.Coherent { b with inbox := inbox } := by
  rcases Binding.receiveEvent_cases hb with ⟨hnil, -⟩ | ⟨d', inbox, hr, hd', hb'⟩
  · simp [Binding.deliveries, hnil] at hd
  · obtain ⟨rfl, rfl⟩ := List.cons.inj (hd.symm.trans hd')
    refine ⟨inbox, ?_, rfl, hb'⟩
    unfold ProtocolBinding.receiveEvent
    rw [hr]
    cases d <;> rfl

/-- A message that is taken in is an event, an error, or the only acknowledgement. -/
theorem length_delivery {m : Message} (h : b.handleIncoming m = (.ok (), b')) :
    m.delivery.toList.length = (if m.isAck then 0 else 1) ∧ (m.isAck → b.acknowledged = false) := by
  have hv : Binding.verdict b.acknowledged m = .ok () := by
    rw [← Binding.handleIncoming_verdict, h]
  cases m with
  | ack endpoint version => simpa [Message.delivery, Message.isAck, Binding.verdict] using hv
  | error code context => simp [Message.delivery, Message.isAck]
  | dataMessage topic data =>
    cases data with
    | event e => simp [Message.delivery, Message.isAck]
    | other v => simp [Binding.verdict] at hv

/-- Where a message is taken in there is something to report, and the acknowledgement leaves nothing
behind it. -/
theorem handled_deliveries (h : Settled b) {m : Message} (hh : b.handleIncoming m = (.ok (), b')) :
    b'.deliveries = b.deliveries ++ m.delivery.toList ∧ b'.Coherent ∧ b'.payloads = [] ∧
      b'.deliveries.length = (if b'.acknowledged then 0 else 1) + 1 := by
  obtain ⟨hd, hout, hack, hcoh⟩ := Binding.handleIncoming_ok hh
  obtain ⟨hlen, hfirst⟩ := length_delivery hh
  refine ⟨hd, hcoh h.coherent, by rw [Binding.payloads, hout]; exact h.sent, ?_⟩
  rw [hd, List.length_append, h.waiting, hlen, hack]
  cases hm : m.isAck with
  | true => simp [hfirst hm]
  | false => simp

/-- A `receive` reports the event or the error that waits longest, and never nothing. -/
theorem receive_settled (h : Settled c.binding) (recv : Option ByteArray) :
    (c.receive P recv).1 ≠ .ok none ∧ Settled (c.receive P recv).2.binding ∧
      (c.done P (.receive recv)).told ++ (c.receive P recv).2.binding.deliveries =
        c.binding.deliveries ++ heard P recv ∧
      (c.receive P recv).2.binding.acknowledged = (c.binding.acknowledged || acks P recv) := by
  cases recv with
  | none => simpa [receive, done, Done.told, heard, acks] using h
  | some data =>
    cases hm : Message.fromBytes P data with
    | err e => simpa [receive, done, Done.told, heard, acks, ProtocolBinding.handleIncoming, hm] using h
    | panic => simpa [receive, done, Done.told, heard, acks, ProtocolBinding.handleIncoming, hm] using h
    | ok m =>
      cases hh : c.binding.handleIncoming m with
      | mk r b =>
        cases r with
        | error e =>
          obtain ⟨rfl, hm'⟩ := Binding.handleIncoming_error hh
          have hnone : m.delivery = none ∧ (m.isAck = true → c.binding.acknowledged = true) := by
            rcases hm' with ⟨hack, hbefore, -⟩ | ⟨topic, v, rfl, -⟩
            · cases m <;> simp_all [Message.isAck, Message.delivery]
            · exact ⟨rfl, by simp [Message.isAck]⟩
          have hin : ProtocolBinding.handleIncoming P c.binding data =
              (.error (.notHandled e), c.binding) := by
            simp only [ProtocolBinding.handleIncoming, hm, hh]
          simp only [receive, done, hin, Done.told, heard, acks, hm, hnone]
          exact ⟨by simp, h, by simp, (Bool.or_eq_left_iff_imp.mpr hnone.2).symm⟩
        | ok u =>
          obtain ⟨hd, hcoh, hsent, hlen⟩ := handled_deliveries h hh
          obtain ⟨-, -, hack, -⟩ := Binding.handleIncoming_ok hh
          obtain ⟨d, ds, hcons⟩ := List.exists_cons_of_length_eq_add_one hlen
          obtain ⟨inbox, hr, hds, hcoh'⟩ := receiveEvent_reported hcoh hcons
          have hin : ProtocolBinding.handleIncoming P c.binding data = (.ok (), b) := by
            simp only [ProtocolBinding.handleIncoming, hm, hh]
          have hlen' : ds.length = if b.acknowledged then 0 else 1 := by simpa [hcons] using hlen
          have hq : d :: ds = c.binding.deliveries ++ heard P (some data) := by
            rw [← hcons, hd, heard, hm]
          simp only [receive, done, hin, hr]
          refine ⟨by cases d <;> simp [reported], ⟨hcoh', by rw [hds]; exact hlen', hsent⟩, ?_, ?_⟩
          · rw [hds, ← hq]
            cases d <;> rfl
          · rw [acks, hm]
            exact hack

/-- How a call may end: a publish looks at nothing but its own event, and a `receive` never returns
nothing. -/
inductive Answers (P : Platform) : Call → Done → Prop
  | published {topic event sends} :
    Answers P (.publish topic event sends) (publishing P topic event sends)
  | received {recv r} (hr : r ≠ .ok none) : Answers P (.receive recv) (.received recv r)

def Call.heard (P : Platform) : Call → List (Except ProtocolError (String × Event))
  | .publish _ _ _ => []
  | .receive recv => Client.heard P recv

def Call.acks (P : Platform) : Call → Bool
  | .publish _ _ _ => false
  | .receive recv => Client.acks P recv

theorem told_publishing (topic : String) (event : Event) (sends : ℕ) :
    (publishing P topic event sends).told = [] := by
  unfold publishing
  split <;> rfl

theorem step_settled (hP : ∀ j, P.renderJson j ≠ "") (h : Settled c.binding) (call : Call) :
    Answers P call (c.done P call) ∧ Settled (c.step P call).binding ∧
      (c.done P call).told ++ (c.step P call).binding.deliveries =
        c.binding.deliveries ++ call.heard P ∧
      (c.step P call).binding.acknowledged = (c.binding.acknowledged || call.acks P) := by
  cases call with
  | publish topic event sends =>
    obtain ⟨hdone, hsettled, hd, hack⟩ := publish_settled hP h topic event sends
    rw [hdone]
    refine ⟨.published, hsettled, ?_, ?_⟩
    · rw [told_publishing, List.nil_append, Call.heard, List.append_nil]
      exact hd
    · rw [Call.acks, Bool.or_false]
      exact hack
  | receive recv =>
    obtain ⟨hr, hsettled, htold, hack⟩ := receive_settled (P := P) h recv
    exact ⟨.received hr, hsettled, htold, hack⟩

/-- Each call answers on its own, and together they report what was heard, in order. -/
theorem history_settled (hP : ∀ j, P.renderJson j ≠ "") (calls : List Call) (h : Settled c.binding) :
    List.Forall₂ (Answers P) calls (c.history P calls).2 ∧ Settled (c.history P calls).1.binding ∧
      (c.history P calls).2.flatMap Done.told ++ (c.history P calls).1.binding.deliveries =
        c.binding.deliveries ++ calls.flatMap (Call.heard P) ∧
      (c.history P calls).1.binding.acknowledged =
        (c.binding.acknowledged || calls.any (Call.acks P)) := by
  induction calls generalizing c with
  | nil => exact ⟨.nil, h, (List.append_nil _).symm, (Bool.or_false _).symm⟩
  | cons call calls ih =>
    obtain ⟨hanswer, hsettled, htold, hack⟩ := step_settled hP h call
    obtain ⟨hall, hlast, hrest, hacks⟩ := ih hsettled
    refine ⟨.cons hanswer hall, hlast, ?_, ?_⟩
    · calc (c.done P call).told ++ ((c.step P call).history P calls).2.flatMap Done.told ++
            ((c.step P call).history P calls).1.binding.deliveries
          = (c.done P call).told ++
              ((c.step P call).binding.deliveries ++ calls.flatMap (Call.heard P)) := by
            rw [List.append_assoc, hrest]
        _ = c.binding.deliveries ++ (call :: calls).flatMap (Call.heard P) := by
            rw [← List.append_assoc, htold, List.append_assoc, List.flatMap_cons]
    · rw [List.any_cons, ← Bool.or_assoc, ← hack]
      exact hacks

theorem handleIncoming_eq_ok {data : ByteArray}
    (h : ProtocolBinding.handleIncoming P b data = (.ok (), b')) :
    ∃ m, Message.fromBytes P data = .ok m ∧ b.handleIncoming m = (.ok (), b') := by
  unfold ProtocolBinding.handleIncoming at h
  split at h
  · cases h
  · cases h
  · next m hm =>
    split at h
    · next b'' hh =>
      obtain rfl : b'' = b' := (Prod.mk.inj h).2
      exact ⟨m, hm, hh⟩
    · cases h

theorem initSent_eq (hP : ∀ j, P.renderJson j ≠ "") (topics : List String) (connected : Bool)
    (sends : ℕ) : initSent P topics connected sends =
      if connected then [⟨Subscriptions.payload P ⟨topics⟩, decide (0 < sends)⟩] else [] := by
  obtain ⟨hsent, -⟩ := flush_single (b := .new P ⟨topics⟩) (f := Subscriptions.toFrame P ⟨topics⟩)
    rfl (isEmpty_toUTF8 (hP _)) sends
  have hpayload : (Subscriptions.toFrame P ⟨topics⟩).intoData = Subscriptions.payload P ⟨topics⟩ := rfl
  simp only [initSent, hsent, hpayload]

theorem init_settled (hP : ∀ j, P.renderJson j ≠ "") {topics : List String} {connected : Bool}
    {sends : ℕ} {recv : Option ByteArray} (hc : init P topics connected sends recv = .ok c) :
    connected = true ∧ 0 < sends ∧ Settled c.binding ∧ c.binding.deliveries = heard P recv ∧
      c.binding.acknowledged = acks P recv := by
  obtain ⟨hconnected, hflush, ack, rfl, hin⟩ := init_eq_ok.mp hc
  obtain ⟨-, hr, hleft⟩ :=
    flush_single (b := .new P ⟨topics⟩) (f := Subscriptions.toFrame P ⟨topics⟩)
    rfl (isEmpty_toUTF8 (hP _)) sends
  have hsends : 0 < sends := by
    by_contra hs
    rw [if_neg hs] at hr
    simp [hr] at hflush
  refine ⟨hconnected, hsends, ?_⟩
  obtain ⟨hstate, hinbox⟩ := flush_keeps ((Binding.new P ⟨topics⟩).outbox.frames.length + 1) sends
    (Binding.new P ⟨topics⟩)
  obtain ⟨m, hm, hh⟩ := handleIncoming_eq_ok hin
  obtain ⟨hd, hout, hack, hcoh⟩ := Binding.handleIncoming_ok hh
  have hfresh : (flushAll sends (Binding.new P ⟨topics⟩)).2.inbox.messages = [] :=
    congrArg Inbox.messages hinbox
  have hd' : c.binding.deliveries = m.delivery.toList := by
    rw [hd, Binding.deliveries, hfresh]
    rfl
  have hack' : c.binding.acknowledged = m.isAck := by
    rw [hack, Binding.acknowledged, flushAll, hstate]
    rfl
  refine ⟨⟨hcoh ?_, ?_, ?_⟩, ?_, ?_⟩
  · simp [Binding.Coherent, hfresh]
  · rw [hd', hack', (length_delivery hh).1]
  · rw [Binding.payloads, hout]
    exact hleft
  · rw [hd', heard, hm]
  · rw [hack', acks, hm]

/-- What a client has done since it was made. -/
structure Accounted (P : Platform) (topics : List String) (sends : ℕ) (recv : Option ByteArray)
    (calls : List Call) (c : Client) (done : List Done) : Prop where
  /-- the subscription went out, once -/
  subscribed : initSent P topics true sends = [⟨Subscriptions.payload P ⟨topics⟩, true⟩]
  /-- a publish tries its own frame once and raises if it is lost, and a `receive` returns something -/
  answers : List.Forall₂ (Answers P) calls done
  /-- no frame is left to be tried later -/
  sent : c.binding.payloads = []
  /-- events and errors are reported once each and in order -/
  told : done.flatMap Done.told ++ c.binding.deliveries = heard P recv ++ calls.flatMap (Call.heard P)
  /-- one of them waits until the acknowledgement comes, and none after it -/
  waiting : c.binding.deliveries.length = if acks P recv || calls.any (Call.acks P) then 0 else 1

/-- However the connection fails and whatever the server sends, a client that was made sends each
frame once and reports what it is told, one message behind until it is acknowledged. -/
theorem history_accounted (P : Platform) (hP : ∀ j, P.renderJson j ≠ "") (topics : List String)
    (connected : Bool) (sends : ℕ) (recv : Option ByteArray) (c : Client)
    (hc : init P topics connected sends recv = .ok c) (calls : List Call) :
    Accounted P topics sends recv calls (c.history P calls).1 (c.history P calls).2 := by
  obtain ⟨-, hsends, hsettled, hheard, hacks⟩ := init_settled hP hc
  obtain ⟨hanswers, hlast, htold, hack⟩ := history_settled hP calls hsettled
  refine ⟨?_, hanswers, hlast.sent, ?_, ?_⟩
  · rw [initSent_eq hP, if_pos rfl, decide_eq_true hsends]
  · rw [htold, hheard]
  · rw [hlast.waiting, hack, hacks]

/-- A platform that writes compact text, and reads frames by their length. -/
def eagerPlatform : Platform := Sample.platform (some Sample.utc) Sample.render Sample.serverPlatform.parseJson

theorem render_ne_empty (j : Json) : Sample.render j ≠ "" := by
  cases j with
  | bool b => cases b <;> simp [Sample.render]
  | num n =>
    cases n with
    | posInt n => simp [Sample.render]
    | negInt n h =>
      rw [Sample.render]
      cases n.toInt with
      | ofNat n => exact Nat.repr_ne_empty
      | negSucc n => simp [Int.repr]
    | float x h => simp [Sample.render, Sample.numbered]
  | _ => simp [Sample.render]

/-- One event is lost and one is sent before the acknowledgement and an error arrive. -/
def eagerCalls : List Call :=
  [.publish "/ping" (.new "ping" []) 0, .publish "/ping" (.new "pong" []) 1,
    .receive (some (Sample.frame 0).intoData), .receive (some (Sample.frame 1).intoData)]

/-- The server sends an event before its acknowledgement. -/
theorem eager_accounted : ∃ c,
    init eagerPlatform ["/ping"] true 1 (some (Sample.frame 2).intoData) = .ok c ∧
    Accounted eagerPlatform ["/ping"] 1 (some (Sample.frame 2).intoData) eagerCalls
      (c.history eagerPlatform eagerCalls).1 (c.history eagerPlatform eagerCalls).2 ∧
    c.binding.deliveries.length = 1 ∧
    (c.history eagerPlatform eagerCalls).1.binding.deliveries.length = 0 := by
  have hm : Message.fromBytes eagerPlatform (Sample.frame 2).intoData =
      .ok (.newData "/ping" (.new "ping" [])) := rfl
  obtain ⟨b, hb⟩ :=
    handleIncoming_waits (b := (flushAll 1 (.new eagerPlatform ⟨["/ping"]⟩)).2) hm trivial
  have hc := init_eq_ok.mpr ⟨rfl, flushAll_new (P := eagerPlatform) ["/ping"], _, rfl, hb⟩
  have key := history_accounted eagerPlatform render_ne_empty ["/ping"] true 1 _ ⟨b⟩ hc
  refine ⟨⟨b⟩, hc, key eagerCalls, ?_, ?_⟩
  · exact (key []).waiting
  · exact (key eagerCalls).waiting

end Client

end ZWS.Python
