import ZeekWebSocket.Sanity.Serve

/-! The conversation with the server as its frames alone decide it, and that the service follows
it: whatever is published meanwhile, the callbacks are those that the frames call for. -/

namespace ZWS

open Base

/-- How far a conversation got. -/
inductive Talk where
  | greeting
  | loop (acknowledged : Bool)
  | over (e : Client.Error)
  | panicked

def Callback.ofDelivery : Except ProtocolError (String × Event) → Callback
  | .ok e => .event e.1 e.2
  | .error e => .error e

namespace Talk

/-- The next frame and the callbacks it calls for. -/
def read (c : Setup) : Talk → Frame → Talk × List Callback
  | .greeting, frame =>
    if frame.isPing then (.greeting, [])
    else
      match Message.ofFrame c.platform frame with
      | .ok (.ack endpoint version) => (.loop false, [.connected endpoint version])
      | .ok message => (.over (.transport ("expected ACK, got '" ++ c.debug message ++ "'")), [])
      | .err e => (.over (.protocolError (.deserializationError e)), [])
      | .panic => (.panicked, [])
  | .loop acknowledged, frame =>
    if frame.isPing then (.loop acknowledged, [])
    else
      match Message.ofFrame c.platform frame with
      | .ok message =>
        match Binding.verdict acknowledged message with
        | .ok () =>
          (.loop (acknowledged || message.isAck), message.delivery.toList.map Callback.ofDelivery)
        | .error e => (.over (.protocolError e), [])
      | .err e => (.loop acknowledged, [.error (.deserializationError e)])
      | .panic => (.panicked, [])
  | talk, _ => (talk, [])

def listen (c : Setup) : Talk → List Frame → Talk × List Callback := feed (read c)

section
variable {c : Setup} {acknowledged : Bool} {frame : Frame} {m : Message} {e : DeserializationError}

theorem greeting_ping (hf : frame.isPing = true) : read c .greeting frame = (.greeting, []) := by
  simp [read, hf]

theorem greeting_ack {endpoint version : String} (hf : frame.isPing = false)
    (hm : Message.ofFrame c.platform frame = .ok (.ack endpoint version)) :
    read c .greeting frame = (.loop false, [.connected endpoint version]) := by
  simp [read, hf, hm]

theorem greeting_refused (hf : frame.isPing = false) (hm : Message.ofFrame c.platform frame = .ok m)
    (ha : m.isAck = false) : read c .greeting frame =
      (.over (.transport ("expected ACK, got '" ++ c.debug m ++ "'")), []) := by
  cases m with
  | ack => simp [Message.isAck] at ha
  | _ => simp [read, hf, hm]

theorem greeting_undecodable (hf : frame.isPing = false)
    (hm : Message.ofFrame c.platform frame = .err e) :
    read c .greeting frame = (.over (.protocolError (.deserializationError e)), []) := by
  simp [read, hf, hm]

theorem greeting_panicked (hf : frame.isPing = false)
    (hm : Message.ofFrame c.platform frame = .panic) : read c .greeting frame = (.panicked, []) := by
  simp [read, hf, hm]

theorem loop_ping (hf : frame.isPing = true) :
    read c (.loop acknowledged) frame = (.loop acknowledged, []) := by
  simp [read, hf]

theorem loop_message (hf : frame.isPing = false) (hm : Message.ofFrame c.platform frame = .ok m)
    (hv : Binding.verdict acknowledged m = .ok ()) : read c (.loop acknowledged) frame =
      (.loop (acknowledged || m.isAck), m.delivery.toList.map Callback.ofDelivery) := by
  simp [read, hf, hm, hv]

theorem loop_rejected {e : ProtocolError} (hf : frame.isPing = false)
    (hm : Message.ofFrame c.platform frame = .ok m)
    (hv : Binding.verdict acknowledged m = .error e) :
    read c (.loop acknowledged) frame = (.over (.protocolError e), []) := by
  simp [read, hf, hm, hv]

theorem loop_undecodable (hf : frame.isPing = false)
    (hm : Message.ofFrame c.platform frame = .err e) : read c (.loop acknowledged) frame =
      (.loop acknowledged, [.error (.deserializationError e)]) := by
  simp [read, hf, hm]

theorem loop_panicked (hf : frame.isPing = false) (hm : Message.ofFrame c.platform frame = .panic) :
    read c (.loop acknowledged) frame = (.panicked, []) := by
  simp [read, hf, hm]

end

/-- There is one handshake. -/
theorem listen_ne_greeting {c : Setup} {talk : Talk} (h : talk ≠ .greeting) (frames : List Frame) :
    (listen c talk frames).1 ≠ .greeting := by
  refine feed_invariant (I := fun talk => talk ≠ Talk.greeting) (fun talk frame ht => ?_) frames h
  cases talk with
  | greeting => exact absurd rfl ht
  | loop acknowledged =>
    simp only [read]
    split
    · simp
    · split
      · split <;> simp
      all_goals simp
  | _ => simp [read]

/-- More may come. -/
def goesOn : Talk → Prop
  | .greeting => True
  | .loop _ => True
  | _ => False

/-- A conversation that is over has no more callbacks. -/
theorem listen_over {c : Setup} {talk : Talk} (h : ¬ talk.goesOn) (frames : List Frame) :
    listen c talk frames = (talk, []) := by
  have hread : ∀ frame, read c talk frame = (talk, []) := by
    intro frame
    cases talk with
    | greeting => exact absurd trivial h
    | loop acknowledged => exact absurd trivial h
    | _ => rfl
  induction frames with
  | nil => rfl
  | cons frame frames ih =>
    rw [listen] at ih ⊢
    rw [feed, hread, ih]
    rfl

theorem read_over {c : Setup} {talk : Talk} {frame : Frame}
    (h : ¬ (read c talk frame).1.goesOn) : (read c talk frame).2 = [] := by
  cases talk with
  | greeting =>
    simp only [read] at h ⊢
    split at h
    · exact absurd trivial h
    · split at h
      · exact absurd trivial h
      all_goals simp_all
  | loop acknowledged =>
    simp only [read] at h ⊢
    split at h
    · exact absurd trivial h
    · split at h
      · split at h
        · exact absurd trivial h
        · simp_all
      · exact absurd trivial h
      · simp_all
  | _ => rfl

end Talk

/-- Callbacks for what waits in the inbox. -/
def Service.pending (s : Service) : List Callback := s.binding.deliveries.map Callback.ofDelivery

namespace Phase

/-- The place of `serve` in a conversation. -/
def At (acknowledged : Bool) (talk : Talk) : Phase → Prop
  | .finished (.ok ()) => talk.goesOn
  | .finished (.error e) => talk = .over e ∨ talk.goesOn ∧ ∃ text, e = .transport text
  | .panicked => talk = .panicked ∨ talk.goesOn
  | phase =>
    if phase.early then talk = .greeting ∧ acknowledged = false else talk = .loop acknowledged

theorem at_of_listens {phase : Phase} {acknowledged : Bool} {talk : Talk} (h : phase.listens = true) :
    phase.At acknowledged talk ↔
      if phase.early then talk = .greeting ∧ acknowledged = false else talk = .loop acknowledged := by
  cases phase with
  | finished r => simp [listens] at h
  | panicked => simp [listens] at h
  | _ => rfl

theorem goesOn_of_at {phase : Phase} {acknowledged : Bool} {talk : Talk} (h : phase.listens = true)
    (hat : phase.At acknowledged talk) : talk.goesOn := by
  rw [at_of_listens h] at hat
  split at hat
  · rw [hat.1]
    trivial
  · rw [hat]
    trivial

theorem at_over {phase : Phase} {acknowledged : Bool} {e : Client.Error}
    (h : phase.At acknowledged (.over e)) : phase = .finished (.error e) := by
  cases hl : phase.listens with
  | true => exact (goesOn_of_at hl h).elim
  | false =>
    cases phase with
    | finished r =>
      rcases r with e' | _
      · rcases h with h | ⟨h, -⟩
        · rw [Talk.over.inj h]
        · exact h.elim
      · exact h.elim
    | panicked =>
      rcases h with h | h
      · simp at h
      · exact h.elim
    | _ => simp [listens] at hl

theorem at_finished {r : Except Client.Error Unit} {acknowledged : Bool} {talk : Talk}
    (hr : Service.Quiet r) (h : talk.goesOn) : (finished r).At acknowledged talk := by
  rcases hr with rfl | ⟨text, rfl⟩
  · exact h
  · exact .inr ⟨h, text, rfl⟩

/-- `serve` is in the loop over `receive_event`. -/
def drains : Phase → Bool
  | .calling .drain _ => true
  | .draining => true
  | .panicked => true
  | _ => false

end Phase

/-- The callbacks made and those to be made are what the frames read so far call for. -/
structure Service.Follows (c : Setup) (s : Service) : Prop where
  talk : ∃ talk, Talk.listen c .greeting (s.greeting ++ s.received) = (talk, s.callbacks ++ s.pending) ∧
    s.phase.At s.binding.acknowledged talk
  met : (∃ endpoint version,
      Talk.listen c .greeting s.greeting = (.loop false, [.connected endpoint version])) ∨
    s.received = [] ∧ ∃ talk, Talk.listen c .greeting s.greeting = (talk, []) ∧
      ∀ acknowledged, talk ≠ .loop acknowledged
  live : ∀ before frame after, s.greeting ++ s.received = before ++ frame :: after →
    (Talk.listen c .greeting before).1.goesOn
  coherent : s.binding.Coherent
  inbox : s.phase.drains = false → s.binding.inbox.messages = []

namespace Service

variable {c : Setup} {s s' : Service} {a : Action}

theorem pending_of_inbox (h : s.binding.inbox.messages = []) : s.pending = [] := by
  simp [pending, Binding.deliveries, h]

/-- Where `serve` is does not matter to what was said. -/
theorem Follows.relocate (h : Follows c s) (hg : s'.greeting = s.greeting)
    (hr : s'.received = s.received) (hc : s'.callbacks = s.callbacks)
    (hi : s'.binding.inbox = s.binding.inbox)
    (hat : ∀ talk, s.phase.At s.binding.acknowledged talk → s'.phase.At s'.binding.acknowledged talk)
    (hd : s'.phase.drains = false → s.binding.inbox.messages = []) : Follows c s' where
  talk := by
    obtain ⟨talk, hlisten, hs⟩ := h.talk
    refine ⟨talk, ?_, hat talk hs⟩
    simpa only [hg, hr, hc, pending, Binding.deliveries, hi] using hlisten
  met := by rw [hg, hr]; exact h.met
  live := by rw [hg, hr]; exact h.live
  coherent := by
    have := h.coherent
    unfold Binding.Coherent at this ⊢
    rwa [hi]
  inbox hs := by rw [hi]; exact hd hs

theorem Follows.stay (h : Follows c s) (hl : s.phase.listens = true) (hl' : s'.phase.listens = true)
    (he : s'.phase.early = s.phase.early) (hg : s'.greeting = s.greeting)
    (hr : s'.received = s.received) (hc : s'.callbacks = s.callbacks)
    (hi : s'.binding.inbox = s.binding.inbox) (hst : s'.binding.state = s.binding.state)
    (hd : s'.phase.drains = false → s.binding.inbox.messages = []) : Follows c s' := by
  refine h.relocate hg hr hc hi (fun talk hat => ?_) hd
  rw [Phase.at_of_listens hl] at hat
  rw [Phase.at_of_listens hl', he]
  simpa only [Binding.acknowledged, hst] using hat

theorem Follows.stop (h : Follows c s) (hl : s.phase.listens = true)
    (hd : s.phase.drains = false) {r : Except Client.Error Unit} (hp : s'.phase = .finished r)
    (hr : Quiet r) (hg : s'.greeting = s.greeting) (hrec : s'.received = s.received)
    (hc : s'.callbacks = s.callbacks) (hi : s'.binding.inbox = s.binding.inbox) : Follows c s' := by
  refine h.relocate hg hrec hc hi (fun talk hat => ?_) fun _ => h.inbox hd
  rw [hp]
  exact Phase.at_finished hr (Phase.goesOn_of_at hl hat)

theorem Follows.unacknowledged (h : Follows c s) (he : s.phase.early = true) :
    s.binding.acknowledged = false := by
  obtain ⟨talk, -, hs⟩ := h.talk
  have hl : s.phase.listens = true := by
    cases hp : s.phase <;> simp_all [Phase.early, Phase.listens]
  rw [Phase.at_of_listens hl, if_pos he] at hs
  exact hs.2

/-- A frame is read only while the conversation goes on. -/
theorem live_snoc {frames frames' : List Frame} {frame : Frame}
    (h : ∀ before frame after, frames = before ++ frame :: after →
      (Talk.listen c .greeting before).1.goesOn) (hf : frames' = frames ++ [frame])
    (hlast : (Talk.listen c .greeting frames).1.goesOn) :
    ∀ before frame after, frames' = before ++ frame :: after →
      (Talk.listen c .greeting before).1.goesOn := by
  intro before f after heq
  rcases List.eq_nil_or_concat after with rfl | ⟨after, last, rfl⟩
  · obtain ⟨rfl, -⟩ := List.append_inj' (hf.symm.trans heq) rfl
    exact hlast
  · refine h before f after ?_
    rw [List.concat_eq_append, ← List.cons_append, ← List.append_assoc] at heq
    exact (List.append_inj' (hf.symm.trans heq) rfl).1

/-- A frame of the handshake. -/
theorem Follows.greet (h : Follows c s) (hp : s.phase = .waiting .handshake) {frame : Frame}
    {talk : Talk} {cs : List Callback} (hread : Talk.read c .greeting frame = (talk, cs))
    (hg : s'.greeting = s.greeting ++ [frame]) (hr : s'.received = s.received)
    (hc : s'.callbacks = s.callbacks ++ cs) (hb : s'.binding = s.binding)
    (hmet : (∃ endpoint version, talk = .loop false ∧ cs = [.connected endpoint version]) ∨
      cs = [] ∧ ∀ acknowledged, talk ≠ .loop acknowledged)
    (hat : s'.phase.At s'.binding.acknowledged talk) : Follows c s' := by
  have hnil : s.binding.inbox.messages = [] := h.inbox (by rw [hp]; rfl)
  obtain ⟨t, hlisten, hs⟩ := h.talk
  obtain ⟨rfl, -⟩ : t = .greeting ∧ _ := by
    simpa [Phase.At, Phase.early, hp] using hs
  have hnot : ¬ ∃ endpoint version,
      Talk.listen c .greeting s.greeting = (.loop false, [.connected endpoint version]) := by
    intro hsome
    obtain ⟨endpoint, version, hloop⟩ := hsome
    have hne : (Talk.listen c (.loop false) s.received).1 ≠ .greeting :=
      Talk.listen_ne_greeting (by simp) s.received
    rw [Talk.listen, feed_append] at hlisten
    rw [Talk.listen] at hloop
    rw [hloop] at hlisten
    exact hne (congrArg Prod.fst hlisten)
  obtain ⟨hrnil, t, ht, -⟩ := h.met.resolve_left hnot
  rw [hrnil, List.append_nil, pending_of_inbox hnil, List.append_nil] at hlisten
  obtain ⟨rfl, hcnil⟩ := Prod.mk.inj (hlisten.symm.trans ht)
  have hnext : Talk.listen c .greeting s'.greeting = (talk, cs) := by
    rw [hg]
    exact feed_snoc ht hread
  exact {
    talk := ⟨talk, by
      rw [hr, hrnil, List.append_nil, hnext, hc, hcnil, pending_of_inbox (by rw [hb]; exact hnil),
        List.append_nil, List.nil_append], hat⟩
    met := by
      rw [hnext]
      rcases hmet with ⟨endpoint, version, rfl, rfl⟩ | ⟨rfl, hne⟩
      · exact .inl ⟨endpoint, version, rfl⟩
      · exact .inr ⟨hr.trans hrnil, talk, rfl, hne⟩
    live := live_snoc h.live (by rw [hr, hrnil, hg, List.append_nil, List.append_nil]) (by
      rw [hrnil, List.append_nil, hlisten]
      trivial)
    coherent := by rw [hb]; exact h.coherent
    inbox := fun _ => by rw [hb]; exact hnil }

/-- A frame of the main loop. -/
theorem Follows.receive (h : Follows c s) (hp : s.phase = .waiting .select) {frame : Frame}
    {talk : Talk} {cs : List Callback}
    (hread : Talk.read c (.loop s.binding.acknowledged) frame = (talk, cs))
    (hg : s'.greeting = s.greeting) (hr : s'.received = s.received ++ [frame])
    (hc : s'.callbacks ++ s'.pending = s.callbacks ++ cs) (hcoh : s'.binding.Coherent)
    (hd : s'.phase.drains = false → s'.binding.inbox.messages = [])
    (hat : s'.phase.At s'.binding.acknowledged talk) :
    Follows c s' := by
  have hnil : s.binding.inbox.messages = [] := h.inbox (by rw [hp]; rfl)
  obtain ⟨t, hlisten, hs⟩ := h.talk
  obtain rfl : t = .loop s.binding.acknowledged := by
    simpa [Phase.At, Phase.early, hp] using hs
  rw [pending_of_inbox hnil, List.append_nil] at hlisten
  exact {
    talk := ⟨talk, by
      rw [hg, hr, ← List.append_assoc, hc]
      exact feed_snoc hlisten hread, hat⟩
    met := by
      rw [hg]
      refine .inl (h.met.resolve_right ?_)
      intro hsome
      obtain ⟨hrnil, t, ht, hne⟩ := hsome
      rw [hrnil, List.append_nil, ht] at hlisten
      exact hne _ (congrArg Prod.fst hlisten)
    live := live_snoc h.live (by rw [hg, hr, List.append_assoc]) (by
      rw [hlisten]
      trivial)
    coherent := hcoh
    inbox := hd }

theorem Follows.deliver (h : Follows c s) (hp : s.phase = .draining)
    {d : Except ProtocolError (String × Event)} {b : Binding}
    (hb : s.binding.receiveEvent = (Binding.returned d, b)) :
    Follows c ({ s with binding := b }.call c (.ofDelivery d) .drain) := by
  obtain ⟨hq, hcoh⟩ := Binding.receiveEvent_returned h.coherent hb
  have hst : b.state = s.binding.state := by rw [Binding.receiveEvent_frame hb]
  obtain ⟨talk, hlisten, hs⟩ := h.talk
  have hpending : s.pending = Callback.ofDelivery d :: b.deliveries.map .ofDelivery := by
    rw [pending, hq, List.map_cons]
  rw [hpending, List.append_cons] at hlisten
  have htalk : talk = .loop s.binding.acknowledged := by simpa [hp, Phase.At, Phase.early] using hs
  refine ⟨⟨talk, hlisten, ?_⟩, h.met, h.live, hcoh, fun hd => by simp [call, Phase.drains] at hd⟩
  rw [htalk, Phase.at_of_listens rfl]
  exact congrArg (fun state => Talk.loop (decide (state = State.subscribed))) hst.symm

theorem Follows.rest (h : Follows c s) (hl : s.phase.listens = true) (hp : s.phase = .draining)
    {b : Binding} (hb : s.binding.receiveEvent = (.ok none, b)) :
    Follows c { s with binding := b, phase := .waiting .select } := by
  obtain ⟨hnil, rfl⟩ := Binding.receiveEvent_none h.coherent hb
  exact h.stay hl rfl (by rw [hp]; rfl) rfl rfl rfl rfl rfl fun _ => hnil

/-- The service follows the conversation: only `stream.next` reads, and only `receive_event`
moves a callback from the pending ones to the ones that were made. -/
theorem follows_moves (h : Follows c s) (hm : Moves c s a s') (hl : s.phase.listens = true) :
    Follows c s' := by
  have hnil : s.phase.drains = false → s.pending = [] := fun hd => pending_of_inbox (h.inbox hd)
  have hmade : s.phase.drains = false → ∀ callbacks, callbacks ++ s.pending = callbacks :=
    fun hd callbacks => by rw [hnil hd, List.append_nil]
  cases hm with
  | connected hp =>
    exact h.stay hl rfl (by rw [hp]; rfl) rfl rfl rfl rfl rfl fun _ => h.inbox (by rw [hp]; rfl)
  | handed hp hb =>
    have hb' := (Binding.outgoing_some hb).2
    exact h.stay hl hl rfl rfl rfl rfl (by rw [hb']) (by rw [hb']) fun _ => h.inbox (by rw [hp]; rfl)
  | @handFailed site data b text hp hb =>
    have hb' := (Binding.outgoing_some hb).2
    exact h.stop hl (by rw [hp]; rfl) rfl (.inr ⟨text, rfl⟩) rfl rfl rfl (by rw [hb']; rfl)
  | @flushed site b hp hb =>
    obtain rfl := (Binding.outgoing_none hb).2
    exact h.stay hl rfl (by rw [hp]; cases site <;> rfl) rfl rfl rfl rfl rfl fun _ =>
      h.inbox (by rw [hp]; rfl)
  | closed hp hr => exact h.stop hl (by rw [hp]; rfl) rfl hr rfl rfl rfl rfl
  | stopped hp hr =>
    have hd : s.phase.drains = false := by
      rcases hp with hp | ⟨site, hp⟩
      · rw [hp]
        rfl
      · rw [hp]
        rfl
    exact h.stop hl hd rfl hr rfl rfl rfl rfl
  | greetPing hp hf =>
    refine h.greet hp (Talk.greeting_ping hf) rfl rfl (by simp) rfl (.inr ⟨rfl, by simp⟩) ?_
    rw [Phase.at_of_listens hl, hp]
    exact ⟨rfl, h.unacknowledged (by rw [hp]; rfl)⟩
  | greetAck hp hf hack =>
    refine h.greet hp (Talk.greeting_ack hf hack) rfl rfl rfl rfl (.inl ⟨_, _, rfl, rfl⟩) ?_
    rw [Phase.at_of_listens rfl]
    exact congrArg Talk.loop (h.unacknowledged (by rw [hp]; rfl)).symm
  | greetRefused hp hf hm ha =>
    exact h.greet hp (Talk.greeting_refused hf hm ha) rfl rfl (by simp [finish]) rfl
      (.inr ⟨rfl, by simp⟩)
      (.inl rfl)
  | greetUndecodable hp hf hm =>
    exact h.greet hp (Talk.greeting_undecodable hf hm) rfl rfl (by simp [finish]) rfl
      (.inr ⟨rfl, by simp⟩)
      (.inl rfl)
  | greetPanicked hp hf hm =>
    exact h.greet hp (Talk.greeting_panicked hf hm) rfl rfl (by simp) rfl
      (.inr ⟨rfl, by simp⟩) (.inl rfl)
  | receivePing hp hf =>
    refine h.receive hp (Talk.loop_ping hf) rfl rfl ?_ h.coherent h.inbox ?_
    · rw [List.append_nil]
      exact hmade (by rw [hp]; rfl) _
    · rw [Phase.at_of_listens hl, hp]
      rfl
  | @receiveMessage frame m b hp hf hm hb =>
    obtain ⟨hq, -, hack, hcoh⟩ := Binding.handleIncoming_ok hb
    have hv := Binding.handleIncoming_verdict s.binding m
    rw [hb] at hv
    refine h.receive hp (Talk.loop_message hf hm hv.symm) rfl rfl ?_ (hcoh h.coherent)
      (fun hd => by simp [Phase.drains] at hd) ?_
    · have hpend := hnil (by rw [hp]; rfl)
      rw [pending] at hpend
      simp only [pending, hq, List.map_append, hpend, List.nil_append]
    · rw [Phase.at_of_listens rfl]
      exact congrArg Talk.loop hack.symm
  | @receiveRejected frame m e b hp hf hm hb =>
    obtain ⟨rfl, -⟩ := Binding.handleIncoming_error hb
    have hv := Binding.handleIncoming_verdict s.binding m
    rw [hb] at hv
    refine h.receive hp (Talk.loop_rejected hf hm hv.symm) rfl rfl ?_ h.coherent
      (fun _ => h.inbox (by rw [hp]; rfl)) (.inl rfl)
    rw [List.append_nil]
    exact hmade (by rw [hp]; rfl) _
  | receiveUndecodable hp hf hm =>
    refine h.receive hp (Talk.loop_undecodable hf hm) rfl rfl ?_ h.coherent
      (fun _ => h.inbox (by rw [hp]; rfl)) ?_
    · exact hmade (by rw [hp]; rfl) _
    · rw [Phase.at_of_listens rfl]
      rfl
  | receivePanicked hp hf hm =>
    refine h.receive hp (Talk.loop_panicked hf hm) rfl rfl ?_ h.coherent
      (fun _ => h.inbox (by rw [hp]; rfl)) (.inl rfl)
    rw [List.append_nil]
    exact hmade (by rw [hp]; rfl) _
  | took hp hc hb =>
    have hb' := (Binding.publishEvent_ok hb).2
    exact h.stay hl rfl (by rw [hp]; rfl) rfl rfl rfl (by rw [hb']) (by rw [hb']) fun _ =>
      h.inbox (by rw [hp]; rfl)
  | tookPanicked hp =>
    exact h.relocate rfl rfl rfl rfl (fun _ hs => .inr (Phase.goesOn_of_at hl hs)) fun _ =>
      h.inbox (by rw [hp]; rfl)
  | tookNone hp =>
    exact h.stay hl rfl (by rw [hp]; rfl) rfl rfl rfl rfl rfl fun _ => h.inbox (by rw [hp]; rfl)
  | drainEvent hp hb => exact h.deliver hp (d := .ok _) hb
  | drainError hp hb => exact h.deliver hp (d := .error _) hb
  | drained hp hb => exact h.rest hl hp hb
  | drainPanicked hp hb =>
    exact absurd (congrArg Prod.fst hb) (Binding.receiveEvent_ne_panic h.coherent)
  | @sent resume e todo hp =>
    refine h.stay hl rfl (by rw [hp]; rfl) rfl rfl rfl rfl rfl fun hd => h.inbox ?_
    rw [hp]
    cases resume with
    | select => rfl
    | drain => simp [Phase.drains] at hd
  | @returned resume hp =>
    refine h.stay hl (by cases resume <;> rfl) (by rw [hp]; cases resume <;> rfl) rfl rfl rfl rfl rfl
      fun hd => h.inbox ?_
    rw [hp]
    cases resume with
    | select => rfl
    | drain => simp [Resume.phase, Phase.drains] at hd
  | accepted => exact h.stay hl hl rfl rfl rfl rfl rfl rfl h.inbox
  | cloned => exact h.stay hl hl rfl rfl rfl rfl rfl rfl h.inbox
  | dropped => exact h.stay hl hl rfl rfl rfl rfl rfl rfl h.inbox

theorem follows_new : Follows c (new c) where
  talk := ⟨.greeting, rfl, rfl, rfl⟩
  met := .inr ⟨rfl, .greeting, rfl, by simp⟩
  live before frame after h := by simp [new] at h
  coherent m hm := by simp [new, Binding.new] at hm
  inbox _ := rfl

/-- Every service that is reached follows its conversation. -/
theorem Serves.follows {as : List Action} (h : Serves c as s) : Follows c s := by
  refine Serves.invariant follows_new (fun s a s' hs hm => ?_) h
  cases hl : s.phase.listens with
  | true => exact follows_moves hs hm hl
  | false =>
    obtain ⟨-, n, rfl⟩ := hm.of_stopped hl
    exact hs.relocate rfl rfl rfl rfl (fun _ => id) hs.inbox

end Service

end ZWS
