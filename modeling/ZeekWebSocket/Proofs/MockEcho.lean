import ZeekWebSocket.Sanity.Mock

/-! A service against the mock server. Whatever is delayed, lost or cut off on the way, the client
is told of the events it published as `echo` on a topic it is subscribed to, and of nothing else. -/

namespace ZWS

open Base

namespace Service

variable {c : Setup} {s s' : Service} {a : Action} {frame : Frame}

/-- How a step changes the channel. -/
theorem Moves.channel (hm : Moves c s a s') :
    (s'.channel = s.channel ∧ s'.accepted = s.accepted) ∨
    (∃ e, s'.channel = s.channel ++ [e] ∧ s'.accepted = s.accepted ++ [e]) ∨
    ∃ e, s.channel = e :: s'.channel ∧ s'.accepted = s.accepted ∧
      (c.Encodes e ∨ s'.phase.listens = false) := by
  cases hm with
  | sent => exact .inr (.inl ⟨_, rfl, rfl⟩)
  | accepted => exact .inr (.inl ⟨_, rfl, rfl⟩)
  | @took topic event channel b hp hc hb =>
    refine .inr (.inr ⟨(topic, event), hc, rfl, .inl ?_⟩)
    cases hj : (Message.dataMessage topic (.event event)).encode c.platform with
    | ok j => exact ⟨j, hj⟩
    | _ => simp [Binding.publishEvent, Binding.enqueue, Outbox.enqueue, Message.toFrame, hj] at hb
  | tookPanicked hp hc => exact .inr (.inr ⟨_, hc, rfl, .inr rfl⟩)
  | _ => exact .inl ⟨rfl, rfl⟩

/-- How a step changes what was handed over. -/
theorem Moves.handed_cases (hm : Moves c s a s') : s'.handed = s.handed ∨
    (∃ f fs, s.queued = f :: fs ∧ s'.handed = s.handed ++ [f]) ∨
    s.phase = .closing ∧ s'.handed = s.handed ++ [closeFrame] := by
  have hqueued : ∀ {data b}, s.binding.outgoing = (some data, b) →
      s.queued = .binary data :: b.payloads.map .binary := fun hb => by
    rw [queued, (Binding.outgoing_some hb).1]
    rfl
  cases hm with
  | handed hp hb => exact .inr (.inl ⟨_, _, hqueued hb, rfl⟩)
  | handFailed hp hb => exact .inr (.inl ⟨_, _, hqueued hb, rfl⟩)
  | closed hp => exact .inr (.inr ⟨hp, rfl⟩)
  | _ => exact .inl rfl

theorem Moves.handed_mono (hm : Moves c s a s') : s.handed <+: s'.handed := by
  rcases hm.handed_cases with h | ⟨f, fs, -, h⟩ | ⟨-, h⟩ <;> simp [h]

theorem Moves.accepted_mono (hm : Moves c s a s') : s.accepted <+: s'.accepted := by
  rcases hm.channel with ⟨-, h⟩ | ⟨e, -, h⟩ | ⟨e, -, h, -⟩ <;> simp [h]

theorem Moves.failed {text : String} (hm : Moves c s (.send (.error text)) s') :
    s'.phase.listens = false := by
  cases hm <;> rfl

/-- What was handed over are the subscription and events that can be written, in their order. -/
def Sent (c : Setup) (s : Service) : Prop :=
  ∃ taken, taken <+: s.accepted ∧ (∀ e ∈ taken, c.Encodes e) ∧
    (s.handed <+: c.outbound taken ∨ s.handed = c.outbound taken ++ [closeFrame])

/-- While `serve` runs, only events that can be written were taken out of the channel. -/
def Pumps (c : Setup) (s : Service) : Prop :=
  ∃ taken, Pipeline c s taken ∧ ∀ e ∈ taken, c.Encodes e

theorem Pumps.sent (h : Pumps c s) (hm : Moves c s a s') : Sent c s' := by
  obtain ⟨taken, hp, henc⟩ := h
  refine ⟨taken, ?_, henc, ?_⟩
  · exact .trans ⟨_, hp.conserve⟩ hm.accepted_mono
  · rcases hm.handed_cases with h | ⟨f, fs, hq, h⟩ | ⟨hc, h⟩
    · exact .inl (h ▸ ⟨_, hp.handed⟩)
    · refine .inl ⟨fs, ?_⟩
      rw [h, List.append_assoc, ← hp.handed, hq]
      rfl
    · have hq : s.queued = [] := hp.settled (by rw [hc]; rfl)
      have hh := hp.handed
      rw [hq, List.append_nil] at hh
      exact .inr (by rw [h, hh])

theorem Pumps.moves (h : Pumps c s) (hm : Moves c s a s') (hl : s'.phase.listens = true) :
    Pumps c s' := by
  obtain ⟨taken, hp, henc⟩ := h
  obtain ⟨taken', hp'⟩ := (pipeline_moves hp hm).resolve_right (by simp [hl])
  refine ⟨taken', hp', ?_⟩
  have hcons := hp.conserve
  have hcons' := hp'.conserve
  rcases hm.channel with ⟨hch, hacc⟩ | ⟨e, hch, hacc⟩ | ⟨e, hch, hacc, he⟩
  · rw [hch, hacc, ← hcons] at hcons'
    rwa [List.append_cancel_right hcons']
  · rw [hch, hacc, ← hcons, ← List.append_assoc] at hcons'
    rwa [List.append_cancel_right (List.append_cancel_right hcons')]
  · rw [hacc, ← hcons, hch, ← List.singleton_append, ← List.append_assoc] at hcons'
    rw [List.append_cancel_right hcons']
    refine List.forall_mem_append.mpr ⟨henc, List.forall_mem_singleton.mpr ?_⟩
    exact he.resolve_right (by simp [hl])

theorem Serves.sent {as : List Action} (h : Serves c as s) :
    Sent c s ∧ (s.phase.listens = true → Pumps c s) := by
  refine Serves.invariant (I := fun s => Sent c s ∧ (s.phase.listens = true → Pumps c s))
    ⟨⟨[], by simp [new], by simp, .inl ⟨_, rfl⟩⟩, fun _ => ⟨[], pipeline_new, by simp⟩⟩
    (fun s a s' hs hm => ?_) h
  cases hl : s.phase.listens with
  | true => exact ⟨(hs.2 hl).sent hm, (hs.2 hl).moves hm⟩
  | false =>
    obtain ⟨-, n, rfl⟩ := hm.of_stopped hl
    exact ⟨hs.1, fun hl' => absurd hl' (by simp [hl])⟩

/-- The handshake comes before the main loop. -/
theorem Follows.early (h : Follows c s) (he : s.phase.early = true) : s.received = [] := by
  rcases h.met with ⟨endpoint, version, hmet⟩ | ⟨hnil, -⟩
  · have hl : s.phase.listens = true := by cases hp : s.phase <;> simp_all [Phase.early, Phase.listens]
    obtain ⟨talk, hlisten, hat⟩ := h.talk
    rw [Phase.at_of_listens hl, if_pos he] at hat
    have hne : (Talk.listen c (.loop false) s.received).1 ≠ .greeting :=
      Talk.listen_ne_greeting (by simp) _
    rw [Talk.listen, feed_append] at hlisten
    rw [Talk.listen] at hmet
    rw [hmet] at hlisten
    exact absurd ((congrArg Prod.fst hlisten).trans hat.1) hne
  · exact hnil

theorem step_frame (h : s.step c (.next (some (.ok frame))) = some s') :
    s.phase = .waiting .handshake ∧ s' = s.greet c frame ∨
      s.phase = .waiting .select ∧ s' = s.receive c frame := by
  simp only [step, next] at h
  split at h
  · rename_i site hp
    cases site with
    | handshake => exact .inl ⟨hp, (Option.some.inj h).symm⟩
    | select => exact .inr ⟨hp, (Option.some.inj h).symm⟩
  · exact absurd h (by simp)

theorem greet_traffic (c : Setup) (s : Service) (frame : Frame) :
    (s.greet c frame).greeting = s.greeting ++ [frame] ∧ (s.greet c frame).received = s.received ∧
      (s.greet c frame).handed = s.handed := by
  unfold greet
  split
  · exact ⟨rfl, rfl, rfl⟩
  · split <;> exact ⟨rfl, rfl, rfl⟩

theorem receive_traffic (c : Setup) (s : Service) (frame : Frame) :
    (s.receive c frame).greeting = s.greeting ∧
      (s.receive c frame).received = s.received ++ [frame] ∧
      (s.receive c frame).handed = s.handed := by
  unfold receive
  split
  · exact ⟨rfl, rfl, rfl⟩
  · split
    · dsimp only
      split <;> exact ⟨rfl, rfl, rfl⟩
    all_goals exact ⟨rfl, rfl, rfl⟩

/-- A frame is read at the end of all that were read. -/
theorem step_frame_traffic (hf : Follows c s) (h : s.step c (.next (some (.ok frame))) = some s') :
    s'.greeting ++ s'.received = s.greeting ++ s.received ++ [frame] ∧ s'.handed = s.handed := by
  rcases step_frame h with ⟨hp, rfl⟩ | ⟨hp, rfl⟩
  · obtain ⟨hg, hr, hh⟩ := greet_traffic c s frame
    have hnil : s.received = [] := hf.early (by rw [hp]; rfl)
    exact ⟨by rw [hg, hr, hnil]; simp, hh⟩
  · obtain ⟨hg, hr, hh⟩ := receive_traffic c s frame
    exact ⟨by rw [hg, hr, List.append_assoc], hh⟩

theorem step_other_traffic (ha : ∀ frame, a ≠ .next (some (.ok frame))) (hm : Moves c s a s') :
    s'.greeting = s.greeting ∧ s'.received = s.received := by
  cases hm with
  | greetPing => exact absurd rfl (ha _)
  | greetAck => exact absurd rfl (ha _)
  | greetRefused => exact absurd rfl (ha _)
  | greetUndecodable => exact absurd rfl (ha _)
  | greetPanicked => exact absurd rfl (ha _)
  | receivePing => exact absurd rfl (ha _)
  | receiveMessage => exact absurd rfl (ha _)
  | receiveRejected => exact absurd rfl (ha _)
  | receiveUndecodable => exact absurd rfl (ha _)
  | receivePanicked => exact absurd rfl (ha _)
  | _ => exact ⟨rfl, rfl⟩

end Service

namespace Exchange

variable {c : Setup} {w w' : Exchange} {o : UtcOffset}

/-- The two ends and what is on its way between them. -/
structure Linked (c : Setup) (w : Exchange) : Prop where
  serves : ∃ as, Service.Serves c as w.service
  sent : w.heard ++ w.upstream <+: w.service.handed
  flows : w.service.phase.listens = true → w.heard ++ w.upstream = w.service.handed
  got : w.service.greeting ++ w.service.received ++ w.downstream = w.answers
  said : w.answers <+: (feed (MockServer.serve c.platform) (some []) w.heard).2
  alive : ∀ subscriptions, w.server = some subscriptions →
    feed (MockServer.serve c.platform) (some []) w.heard = (some subscriptions, w.answers)

theorem linked_new : Linked c (new c) where
  serves := ⟨[], .nil⟩
  sent := by simp [new]
  flows _ := rfl
  got := rfl
  said := by simp [new]
  alive subscriptions h := by
    obtain rfl := Option.some.inj h
    rfl

theorem carried_sublist {r : Except String Unit} {arrives : Bool} (frames : List Frame) :
    carried r arrives frames <+: frames := by
  cases r with
  | ok => exact List.prefix_rfl
  | error text => cases arrives <;> simp [carried]

theorem Linked.service (h : Linked c w) {a : Action} {arrives : Bool}
    (hs : w.stepService c a arrives = some w') : Linked c w' := by
  obtain ⟨ha, service, hstep, rfl⟩ : (∀ frame, a ≠ .next (some (.ok frame))) ∧
      ∃ service, w.service.step c a = some service ∧ { w with
        service := service, upstream := w.upstream ++
          carried (result a) arrives (service.handed.drop w.service.handed.length) } = w' := by
    unfold stepService at hs
    split at hs
    · exact absurd hs (by simp)
    · next hne =>
      simp only [Option.bind_eq_bind, Option.bind_eq_some_iff, Option.pure_def, Option.some.injEq] at hs
      exact ⟨fun frame => hne frame, hs⟩
  have hm := Service.moves_of_step hstep
  obtain ⟨as, has⟩ := h.serves
  obtain ⟨more, hmore⟩ := hm.handed_mono
  obtain ⟨hg, hr⟩ := Service.step_other_traffic ha hm
  have hdrop : service.handed.drop w.service.handed.length = more := by rw [← hmore]; simp
  refine ⟨⟨_, .snoc has hstep⟩, ?_, fun hl => ?_, ?_, h.said, h.alive⟩
  · obtain ⟨rest, hrest⟩ := h.sent
    simp only [hdrop]
    by_cases hl : w.service.phase.listens = true
    · rw [← List.append_assoc, h.flows hl, ← hmore]
      exact List.prefix_append_right_inj _ |>.mpr (carried_sublist more)
    · obtain ⟨-, n, rfl⟩ := hm.of_stopped (by simpa using hl)
      obtain rfl : more = [] := by simpa using hmore
      have hnil : carried (result a) arrives [] = [] := List.prefix_nil.mp (carried_sublist _)
      rw [hnil, List.append_nil]
      exact h.sent
  · have hok : carried (result a) arrives more = more := by
      cases a with
      | send r =>
        cases r with
        | ok => rfl
        | error text => exact absurd hl (by simp [hm.failed])
      | _ => rfl
    have hl0 : w.service.phase.listens = true := by
      by_contra hn
      obtain ⟨-, n, rfl⟩ := hm.of_stopped (by simpa using hn)
      exact hn hl
    simp only [hdrop, hok]
    rw [← List.append_assoc, h.flows hl0, hmore]
  · simp only [hg, hr]
    exact h.got

theorem Linked.deliver (h : Linked c w) (hs : w.deliver c = some w') : Linked c w' := by
  unfold Exchange.deliver at hs
  split at hs
  · exact absurd hs (by simp)
  · next frame downstream hd =>
    obtain ⟨service, hstep, rfl⟩ :
        ∃ service, w.service.step c (.next (some (.ok frame))) = some service ∧
        { w with service := service, downstream := downstream } = w' := by
      simpa [Option.bind_eq_some_iff] using hs
    obtain ⟨as, has⟩ := h.serves
    obtain ⟨htraffic, hhanded⟩ := Service.step_frame_traffic has.follows hstep
    refine ⟨⟨_, .snoc has hstep⟩, ?_, fun _ => ?_, ?_, h.said, h.alive⟩
    · simp only [hhanded]
      exact h.sent
    · have hl : w.service.phase.listens = true := by
        rcases Service.step_frame hstep with ⟨hp, -⟩ | ⟨hp, -⟩ <;> rw [hp] <;> rfl
      simp only [hhanded]
      exact h.flows hl
    · have hgot := h.got
      rw [hd] at hgot
      simp only [htraffic, List.append_assoc, List.singleton_append] at hgot ⊢
      exact hgot

theorem Linked.serve (h : Linked c w) {r : Except String Unit} {arrives : Bool}
    (hs : w.serve c r arrives = some w') : Linked c w' := by
  unfold Exchange.serve at hs
  split at hs
  · next subscriptions msg upstream hserver hup =>
    obtain rfl := Option.some.inj hs
    have halive := h.alive _ hserver
    obtain ⟨server, frames, hread⟩ : ∃ server frames,
        MockServer.serve c.platform (some subscriptions) msg = (server, frames) := ⟨_, _, rfl⟩
    have hfeed := feed_snoc halive hread
    rw [MockServer.serve] at hread
    rw [hread]
    refine ⟨h.serves, ?_, fun hl => ?_, ?_, ?_, fun subs hsubs => ?_⟩
    · simpa [hup] using h.sent
    · simpa [hup] using h.flows hl
    · rw [← List.append_assoc, h.got]
    · rw [hfeed]
      exact (List.prefix_append_right_inj _).mpr (carried_sublist frames)
    · rw [hfeed]
      by_cases hgone : (r.isOk || frames.isEmpty) = true
      · rw [if_pos hgone] at hsubs
        have hall : carried r arrives frames = frames := by
          cases r with
          | ok => rfl
          | error text =>
            obtain rfl : frames = [] := by simpa [Except.isOk, Except.toBool] using hgone
            exact List.prefix_nil.mp (carried_sublist _)
        exact Prod.ext hsubs (by rw [hall])
      · rw [if_neg hgone] at hsubs
        exact absurd hsubs (by simp)
  · exact absurd hs (by simp)

theorem Reaches.linked {ls : List Label} (h : Reaches c ls w) : Linked c w := by
  refine Run.invariant (I := Linked c) linked_new (fun w l w' hw hs => ?_) h
  cases l with
  | service a arrives => exact hw.service hs
  | deliver => exact hw.deliver hs
  | serve r arrives => exact hw.serve hs
  | leave =>
    obtain rfl := Option.some.inj hs
    exact { hw with alive := fun _ hn => absurd hn (by simp) }

/-- Nothing is on its way, and both sides wait for more. -/
def Settled (w : Exchange) : Prop :=
  w.service.phase = .waiting .select ∧ w.service.channel = [] ∧ w.server.isSome ∧ w.upstream = [] ∧
    w.downstream = []

/-- What the client is told for all that it published. -/
def told (c : Setup) (o : UtcOffset) (events : List (String × Event)) : List Callback :=
  .connected "mock-server" "0.0.1" :: (c.echoes events).map (Talk.echoCallback o)

/-- The client is told of its echoes in order, each at most once and in the end exactly once, and
no error of the protocol ends the service. -/
structure Echoing (c : Setup) (o : UtcOffset) (w : Exchange) : Prop where
  order : w.service.callbacks <+: told c o w.service.accepted
  complete : w.Settled → w.service.callbacks = told c o w.service.accepted
  regular : ∀ e, w.service.phase = .finished (.error e) → ∃ text, e = .transport text

theorem echoes_mono {events events' : List (String × Event)} (h : events <+: events') :
    told c o events <+: told c o events' :=
  List.cons_prefix_cons.mpr ⟨rfl, ((h.filter _).map _).map _⟩

section
variable (hP : c.platform.RoundTrips) (ho : c.platform.localOffset = some o)
  (hc : c.Carries o w.service.accepted)
include hP ho hc

theorem answers_of_heard {taken : List (String × Event)} (hmem : taken <+: w.service.accepted)
    (henc : ∀ e ∈ taken, c.Encodes e) {heard : List Frame}
    (hheard : heard <+: c.outbound taken ++ [Service.closeFrame]) :
    (feed (MockServer.serve c.platform) (some []) heard).2 <+:
      c.ackFrame :: (c.echoes taken).map c.echoFrame := by
  have hall := MockServer.serve_outbound hP ho hc fun e he => ⟨hmem.subset he, henc e he⟩
  have hclose : MockServer.serve c.platform (some c.subscriptions.topics) Service.closeFrame =
      (some c.subscriptions.topics, []) := by
    rw [MockServer.serve, MockServer.handle_close]
    rfl
  have hmono : (feed (MockServer.serve c.platform) (some []) heard).2 <+:
      (feed (MockServer.serve c.platform) (some []) (c.outbound taken ++ [Service.closeFrame])).2 :=
    feed_mono (some []) hheard
  rwa [feed_snoc hall hclose, List.append_nil] at hmono

theorem listen_of_answers {taken : List (String × Event)} (hmem : taken <+: w.service.accepted)
    (henc : ∀ e ∈ taken, c.Encodes e) {frames : List Frame}
    (hframes : frames <+: c.ackFrame :: (c.echoes taken).map c.echoFrame) :
    (Talk.listen c .greeting frames).2 <+: told c o taken ∧
      (Talk.listen c .greeting frames).1.goesOn := by
  have hall := Talk.listen_answers hP ho hc fun e he => ⟨hmem.subset he, henc e he⟩
  have hmono : (feed (Talk.read c) Talk.greeting frames).2 <+:
      (feed (Talk.read c) Talk.greeting (c.ackFrame :: (c.echoes taken).map c.echoFrame)).2 :=
    feed_mono Talk.greeting hframes
  refine ⟨?_, ?_⟩
  · rw [Talk.listen] at hall ⊢
    rwa [hall] at hmono
  · by_contra hover
    obtain ⟨rest, hrest⟩ := hframes
    rw [← hrest, Talk.listen, feed_append] at hall
    have hstays : feed (Talk.read c) (feed (Talk.read c) .greeting frames).1 rest =
        ((feed (Talk.read c) .greeting frames).1, []) := Talk.listen_over (c := c) hover rest
    rw [hstays] at hall
    have hloop : (Talk.listen c .greeting frames).1 = .loop false := congrArg Prod.fst hall
    rw [hloop] at hover
    exact hover trivial

end

/-- In every state that the service, the server and the connection can reach together. -/
theorem mock_echoes (c : Setup) (hP : c.platform.RoundTrips) (o : UtcOffset)
    (ho : c.platform.localOffset = some o) (ls : List Label) (w : Exchange) (h : Reaches c ls w)
    (hc : c.Carries o w.service.accepted) : Echoing c o w := by
  have hl := h.linked
  obtain ⟨as, has⟩ := hl.serves
  obtain ⟨⟨taken, hmem, henc, hsent⟩, hpumps⟩ := has.sent
  have hheard : w.heard <+: c.outbound taken ++ [Service.closeFrame] := by
    have hhanded : w.heard <+: w.service.handed := (List.prefix_append _ _).trans hl.sent
    rcases hsent with hs | hs
    · exact (hhanded.trans hs).trans (List.prefix_append _ _)
    · exact hs ▸ hhanded
  have hread : w.service.greeting ++ w.service.received <+: w.answers := ⟨_, hl.got⟩
  have hframes := hread.trans (hl.said.trans (answers_of_heard hP ho hc hmem henc hheard))
  obtain ⟨hout, hgo⟩ := listen_of_answers hP ho hc hmem henc hframes
  obtain ⟨talk, hlisten, hat⟩ := has.follows.talk
  rw [hlisten] at hout hgo
  refine ⟨?_, ?_, ?_⟩
  · exact ((List.prefix_append _ _).trans hout).trans (echoes_mono hmem)
  · rintro ⟨hp, hch, hserver, hup, hdown⟩
    obtain ⟨taken', hpipe, henc'⟩ := hpumps (by rw [hp]; rfl)
    obtain ⟨subscriptions, hsubs⟩ := Option.isSome_iff_exists.mp hserver
    have hall : taken' = w.service.accepted := by
      have := hpipe.conserve
      rwa [hch, List.append_nil] at this
    rw [hall] at henc'
    have hheard' : w.heard = c.outbound w.service.accepted := by
      have hflows := hl.flows (by rw [hp]; rfl)
      have hhanded := hpipe.handed
      rw [hpipe.settled (by rw [hp]; rfl), List.append_nil, hall] at hhanded
      rw [hup, List.append_nil, hhanded] at hflows
      exact hflows
    have halive := hl.alive _ hsubs
    rw [hheard', MockServer.serve_outbound hP ho hc fun e he => ⟨he, henc' e he⟩] at halive
    have hgot := hl.got
    rw [hdown, List.append_nil, ← (Prod.mk.inj halive).2] at hgot
    rw [hgot, Talk.listen_answers hP ho hc fun e he => ⟨he, henc' e he⟩] at hlisten
    have hpending := Service.pending_of_inbox (has.follows.inbox (by rw [hp]; rfl))
    rw [hpending, List.append_nil] at hlisten
    exact (Prod.mk.inj hlisten).2.symm
  · intro e hp
    rw [hp] at hat
    rcases hat with rfl | ⟨-, text, rfl⟩
    · exact hgo.elim
    · exact ⟨text, rfl⟩

def greeting : String × Event := ("/ping", .new "echo" [.count 1])

def documents : List Json :=
  [.arr [.str "/ping"]] ++ [MockServer.ack, .dataMessage greeting.1 (.event greeting.2)].filterMap fun m =>
    match m.encode Sample.utcPlatform with
    | .ok j => some j
    | _ => none

/-- Publish an `echo` once connected. -/
def echoClient : Setup :=
  { Sample.setup fun
      | [.connected _ _] => [greeting]
      | _ => [] with
    platform := Sample.textPlatform documents }

def echoLabels : List Label :=
  [.service (.connect (.ok ())) true, .service (.send (.ok ())) true, .service .flushed true,
    .serve (.ok ()) true, .deliver, .service .callbackSend true, .service .callbackDone true,
    .service .recv true, .service (.send (.ok ())) true, .service .flushed true, .serve (.ok ()) true,
    .deliver, .service .drain true, .service .callbackDone true, .service .drain true]

theorem documents_legible {j : Json} (h : j ∈ documents) : echoClient.platform.Legible j :=
  Sample.textPlatform_parse (by decide +kernel) h

theorem echoClient_carries : echoClient.Carries Sample.utc [greeting] := by
  refine ⟨documents_legible ?_, fun j hj => documents_legible ?_, fun e he j hj => documents_legible ?_,
    fun e he j hj => documents_legible ?_, fun e he v hv => ?_⟩
  · exact List.mem_cons_self
  · obtain rfl := Outcome.ok.inj hj
    exact List.mem_cons_of_mem _ List.mem_cons_self
  · obtain rfl := List.mem_singleton.mp he
    obtain rfl := Outcome.ok.inj hj
    exact List.mem_cons_of_mem _ (List.mem_cons_of_mem _ List.mem_cons_self)
  · obtain rfl := List.mem_singleton.mp he
    obtain rfl := Outcome.ok.inj hj
    exact List.mem_cons_of_mem _ (List.mem_cons_of_mem _ List.mem_cons_self)
  · obtain rfl := List.mem_singleton.mp he
    obtain rfl : v = .count 1 := by simpa [greeting, Event.new] using hv
    refine ⟨by decide, fun x hx => ?_, fun t ht => ?_⟩
    · simp [Value.parts] at hx
    · simp [Value.parts] at ht

set_option maxRecDepth 8000 in
theorem echoClient_echoes : ∃ w, Reaches echoClient echoLabels w ∧ Echoing echoClient Sample.utc w ∧
    w.service.callbacks.length = 2 := by
  obtain ⟨w, hw, hacc, hlen⟩ : ∃ w, echoLabels.foldlM (step echoClient) (new echoClient) = some w ∧
      w.service.accepted = [greeting] ∧ w.service.callbacks.length = 2 := ⟨_, rfl, rfl, rfl⟩
  have hreach : Reaches echoClient echoLabels w := .of_foldlM hw
  refine ⟨w, hreach, ?_, hlen⟩
  exact mock_echoes echoClient (Sample.platform_roundTrips _ _ _) Sample.utc rfl echoLabels w hreach
    (hacc ▸ echoClient_carries)

end Exchange

end ZWS
