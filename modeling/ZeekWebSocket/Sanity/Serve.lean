import ZeekWebSocket.Sanity.Binding
import ZeekWebSocket.Spec.Serve

/-! Everything a step of the service can do, one case for each branch of `serve`. -/

namespace ZWS

open Base

/-- The acknowledgement is still to come. -/
def Phase.early : Phase → Bool
  | .connecting => true
  | .flushing .handshake => true
  | .waiting .handshake => true
  | _ => false

namespace Service

variable {c : Setup} {s s' : Service}

/-- A result that says nothing about what the server sent. -/
def Quiet (r : Except Client.Error Unit) : Prop := r = .ok () ∨ ∃ text, r = .error (.transport text)

/-- The steps, by the branch they take. -/
inductive Moves (c : Setup) (s : Service) : Action → Service → Prop
  | connected (h : s.phase = .connecting) :
      Moves c s (.connect (.ok ())) { s with phase := .flushing .handshake }
  | handed {site data b} (h : s.phase = .flushing site) (hb : s.binding.outgoing = (some data, b)) :
      Moves c s (.send (.ok ())) { s with binding := b, handed := s.handed ++ [Frame.binary data] }
  | handFailed {site data b text} (h : s.phase = .flushing site)
      (hb : s.binding.outgoing = (some data, b)) :
      Moves c s (.send (.error text))
        ({ s with binding := b, handed := s.handed ++ [Frame.binary data] }.finish (.error (.transport text)))
  | flushed {site b} (h : s.phase = .flushing site) (hb : s.binding.outgoing = (none, b)) :
      Moves c s .flushed { s with binding := b, phase := .waiting site }
  | closed {r result} (h : s.phase = .closing) (hr : Quiet result) :
      Moves c s (.send r) ({ s with handed := s.handed ++ [closeFrame] }.finish result)
  | stopped {a r} (h : s.phase = .connecting ∨ ∃ site, s.phase = .waiting site) (hr : Quiet r) :
      Moves c s a (s.finish r)
  | greetPing {frame} (h : s.phase = .waiting .handshake) (hf : frame.isPing = true) :
      Moves c s (.next (some (.ok frame))) { s with greeting := s.greeting ++ [frame] }
  | greetAck {frame endpoint version} (h : s.phase = .waiting .handshake) (hf : frame.isPing = false)
      (hm : Message.ofFrame c.platform frame = .ok (.ack endpoint version)) :
      Moves c s (.next (some (.ok frame)))
        ({ s with greeting := s.greeting ++ [frame] }.call c (.connected endpoint version) .select)
  | greetRefused {frame m} (h : s.phase = .waiting .handshake) (hf : frame.isPing = false)
      (hm : Message.ofFrame c.platform frame = .ok m) (ha : m.isAck = false) :
      Moves c s (.next (some (.ok frame))) ({ s with greeting := s.greeting ++ [frame] }.finish
        (.error (.transport ("expected ACK, got '" ++ c.debug m ++ "'"))))
  | greetUndecodable {frame e} (h : s.phase = .waiting .handshake) (hf : frame.isPing = false)
      (hm : Message.ofFrame c.platform frame = .err e) :
      Moves c s (.next (some (.ok frame))) ({ s with greeting := s.greeting ++ [frame] }.finish
        (.error (.protocolError (.deserializationError e))))
  | greetPanicked {frame} (h : s.phase = .waiting .handshake) (hf : frame.isPing = false)
      (hm : Message.ofFrame c.platform frame = .panic) :
      Moves c s (.next (some (.ok frame)))
        { s with greeting := s.greeting ++ [frame], phase := .panicked }
  | receivePing {frame} (h : s.phase = .waiting .select) (hf : frame.isPing = true) :
      Moves c s (.next (some (.ok frame))) { s with received := s.received ++ [frame] }
  | receiveMessage {frame m b} (h : s.phase = .waiting .select) (hf : frame.isPing = false)
      (hm : Message.ofFrame c.platform frame = .ok m) (hb : s.binding.handleIncoming m = (.ok (), b)) :
      Moves c s (.next (some (.ok frame)))
        { s with received := s.received ++ [frame], binding := b, phase := .draining }
  | receiveRejected {frame m e b} (h : s.phase = .waiting .select) (hf : frame.isPing = false)
      (hm : Message.ofFrame c.platform frame = .ok m) (hb : s.binding.handleIncoming m = (.error e, b)) :
      Moves c s (.next (some (.ok frame)))
        ({ s with received := s.received ++ [frame], binding := b }.finish (.error (.protocolError e)))
  | receiveUndecodable {frame e} (h : s.phase = .waiting .select) (hf : frame.isPing = false)
      (hm : Message.ofFrame c.platform frame = .err e) :
      Moves c s (.next (some (.ok frame)))
        ({ s with received := s.received ++ [frame] }.call c (.error (.deserializationError e)) .select)
  | receivePanicked {frame} (h : s.phase = .waiting .select) (hf : frame.isPing = false)
      (hm : Message.ofFrame c.platform frame = .panic) :
      Moves c s (.next (some (.ok frame)))
        { s with received := s.received ++ [frame], phase := .panicked }
  | took {topic event channel b} (h : s.phase = .waiting .select)
      (hc : s.channel = (topic, event) :: channel)
      (hb : s.binding.publishEvent c.platform topic event = (.ok b : Outcome Empty Binding)) :
      Moves c s .recv { s with channel := channel, binding := b, phase := .flushing .select }
  | tookPanicked {e channel} (h : s.phase = .waiting .select) (hc : s.channel = e :: channel) :
      Moves c s .recv { s with channel := channel, phase := .panicked }
  | tookNone (h : s.phase = .waiting .select) (hc : s.channel = []) (ho : s.outboxes = 0) :
      Moves c s .recv { s with phase := .closing }
  | drainEvent {topic event b} (h : s.phase = .draining)
      (hb : s.binding.receiveEvent = (.ok (some (topic, event)), b)) :
      Moves c s .drain ({ s with binding := b }.call c (.event topic event) .drain)
  | drainError {e b} (h : s.phase = .draining) (hb : s.binding.receiveEvent = (.err e, b)) :
      Moves c s .drain ({ s with binding := b }.call c (.error e) .drain)
  | drained {b} (h : s.phase = .draining) (hb : s.binding.receiveEvent = (.ok none, b)) :
      Moves c s .drain { s with binding := b, phase := .waiting .select }
  | drainPanicked {b} (h : s.phase = .draining) (hb : s.binding.receiveEvent = (.panic, b)) :
      Moves c s .drain { s with binding := b, phase := .panicked }
  | sent {resume e todo} (h : s.phase = .calling resume (e :: todo))
      (hroom : s.channel.length < c.config.outboxSize) :
      Moves c s .callbackSend { s with
        phase := .calling resume todo, channel := s.channel ++ [e], accepted := s.accepted ++ [e] }
  | returned {resume} (h : s.phase = .calling resume []) :
      Moves c s .callbackDone { s with phase := resume.phase }
  | accepted {topic event} (hl : s.phase.listens = true) (ho : 0 < s.outboxes)
      (hroom : s.channel.length < c.config.outboxSize) :
      Moves c s (.accept topic event) { s with
        channel := s.channel ++ [(topic, event)], accepted := s.accepted ++ [(topic, event)] }
  | cloned (ho : 0 < s.outboxes) : Moves c s .clone { s with outboxes := s.outboxes + 1 }
  | dropped (ho : s.phase.held < s.outboxes) : Moves c s .drop { s with outboxes := s.outboxes - 1 }

theorem moves_send {r : Except String Unit} (h : s.send r = some s') : Moves c s (.send r) s' := by
  unfold send at h
  split at h
  · rename_i site hp
    split at h
    · rename_i data b hb
      cases r with
      | ok =>
        obtain rfl := Option.some.inj h
        exact .handed hp hb
      | error text =>
        obtain rfl := Option.some.inj h
        exact .handFailed hp hb
    · exact absurd h (by simp)
  · rename_i hp
    obtain rfl := Option.some.inj h
    cases r with
    | ok => exact .closed hp (.inl rfl)
    | error text => exact .closed hp (.inr ⟨text, rfl⟩)
  · exact absurd h (by simp)

theorem moves_greet {frame : Frame} (hp : s.phase = .waiting .handshake) :
    Moves c s (.next (some (.ok frame))) (s.greet c frame) := by
  unfold greet
  cases hf : frame.isPing with
  | true => exact .greetPing hp hf
  | false =>
    cases hm : Message.ofFrame c.platform frame with
    | ok m =>
      cases m with
      | ack endpoint version => exact .greetAck hp hf hm
      | _ => exact .greetRefused hp hf hm rfl
    | err e => exact .greetUndecodable hp hf hm
    | panic => exact .greetPanicked hp hf hm

theorem moves_receive {frame : Frame} (hp : s.phase = .waiting .select) :
    Moves c s (.next (some (.ok frame))) (s.receive c frame) := by
  unfold receive
  cases hf : frame.isPing with
  | true => exact .receivePing hp hf
  | false =>
    cases hm : Message.ofFrame c.platform frame with
    | ok m =>
      rcases hb : s.binding.handleIncoming m with ⟨_ | _, b⟩
      · simp only [hb]
        exact .receiveRejected hp hf hm hb
      · simp only [hb]
        exact .receiveMessage hp hf hm hb
    | err e => exact .receiveUndecodable hp hf hm
    | panic => exact .receivePanicked hp hf hm

theorem moves_next {r : Option (Except String Frame)} (h : s.next c r = some s') :
    Moves c s (.next r) s' := by
  unfold next at h
  split at h
  · rename_i site hp
    split at h
    · obtain rfl := Option.some.inj h
      exact .stopped (.inr ⟨site, hp⟩) (.inl rfl)
    · obtain rfl := Option.some.inj h
      exact .stopped (.inr ⟨site, hp⟩) (.inr ⟨_, rfl⟩)
    · cases site with
      | handshake =>
        obtain rfl := Option.some.inj h
        exact moves_greet hp
      | select =>
        obtain rfl := Option.some.inj h
        exact moves_receive hp
  · exact absurd h (by simp)

theorem moves_recv (h : s.recv c = some s') : Moves c s .recv s' := by
  unfold recv at h
  split at h
  · rename_i hp
    split at h
    · rename_i topic event channel hc
      simp only at h
      split at h
      · rename_i b hb
        obtain rfl := Option.some.inj h
        exact .took hp hc hb
      · obtain rfl := Option.some.inj h
        exact .tookPanicked hp hc
    · rename_i hc
      split at h
      · rename_i ho
        obtain rfl := Option.some.inj h
        exact .tookNone hp hc ho
      · exact absurd h (by simp)
  · exact absurd h (by simp)

theorem moves_drain (h : s.drain c = some s') : Moves c s .drain s' := by
  unfold drain at h
  split at h
  · rename_i hp
    split at h
    · rename_i topic event b hb
      obtain rfl := Option.some.inj h
      exact .drainEvent hp hb
    · rename_i b hb
      obtain rfl := Option.some.inj h
      exact .drained hp hb
    · rename_i e b hb
      obtain rfl := Option.some.inj h
      exact .drainError hp hb
    · rename_i b hb
      obtain rfl := Option.some.inj h
      exact .drainPanicked hp hb
  · exact absurd h (by simp)

theorem push_eq_some {e : String × Event} : s.push c e = some s' ↔
    s.channel.length < c.config.outboxSize ∧
      s' = { s with channel := s.channel ++ [e], accepted := s.accepted ++ [e] } := by
  unfold push
  split <;> simp_all [eq_comm]

/-- Every step is one of the moves. -/
theorem moves_of_step {a : Action} (h : s.step c a = some s') : Moves c s a s' := by
  cases a with
  | connect r =>
    simp only [step, connect] at h
    split at h
    · rename_i hp
      obtain rfl := Option.some.inj h
      cases r with
      | ok => exact .connected hp
      | error text => exact .stopped (.inl hp) (.inr ⟨text, rfl⟩)
    · exact absurd h (by simp)
  | send r => exact moves_send h
  | flushed =>
    simp only [step, Service.flushed] at h
    split at h
    · rename_i site hp
      split at h
      · rename_i b hb
        obtain rfl := Option.some.inj h
        exact .flushed hp hb
      · exact absurd h (by simp)
    · exact absurd h (by simp)
  | next r => exact moves_next h
  | recv => exact moves_recv h
  | drain => exact moves_drain h
  | callbackSend =>
    simp only [step, callbackSend] at h
    split at h
    · rename_i resume e todo hp
      obtain ⟨hroom, rfl⟩ := push_eq_some.mp h
      exact .sent hp hroom
    · exact absurd h (by simp)
  | callbackDone =>
    simp only [step, callbackDone] at h
    split at h
    · rename_i resume hp
      obtain rfl := Option.some.inj h
      exact .returned hp
    · exact absurd h (by simp)
  | accept topic event =>
    simp only [step, accept] at h
    split at h
    · rename_i hl
      obtain ⟨hroom, rfl⟩ := push_eq_some.mp h
      exact .accepted hl.1 hl.2 hroom
    · exact absurd h (by simp)
  | clone =>
    simp only [step, clone] at h
    split at h
    · rename_i ho
      obtain rfl := Option.some.inj h
      exact .cloned ho
    · exact absurd h (by simp)
  | drop =>
    simp only [step, drop] at h
    split at h
    · rename_i ho
      obtain rfl := Option.some.inj h
      exact .dropped ho
    · exact absurd h (by simp)

/-- Once `serve` has returned, all that changes is the number of outboxes that are left. -/
theorem Moves.of_stopped {a : Action} (hm : Moves c s a s') (hl : s.phase.listens = false) :
    0 < s.outboxes ∧ ∃ n, s' = { s with outboxes := n } := by
  cases hm with
  | cloned ho => exact ⟨ho, _, rfl⟩
  | dropped ho => exact ⟨by omega, _, rfl⟩
  | stopped h => rcases h with h | ⟨site, h⟩ <;> simp [h, Phase.listens] at hl
  | accepted h => simp [h] at hl
  | _ => simp_all [Phase.listens]

/-- What every move keeps, a service that serves has. -/
theorem Serves.invariant {I : Service → Prop} (hinit : I (new c))
    (hmove : ∀ s a s', I s → Moves c s a s' → I s') {as : List Action} (h : Serves c as s) : I s :=
  Run.invariant hinit (fun s a s' hi hs => hmove s a s' hi (moves_of_step hs)) h

theorem Serves.invariant_labels {I : List Action → Service → Prop} (hinit : I [] (new c))
    (hmove : ∀ as s a s', I as s → Moves c s a s' → I (as ++ [a]) s') {as : List Action}
    (h : Serves c as s) : I as s :=
  Run.invariant_labels hinit (fun as s a s' hi hs => hmove as s a s' hi (moves_of_step hs)) h

/-- Labels that can be taken one after the other reach a state, which has what it is seen to have. -/
theorem exists_serves {as : List Action} {p : Service → Bool}
    (h : (as.foldlM (step c) (new c)).any p = true) : ∃ s, Serves c as s ∧ p s = true := by
  obtain ⟨s, hs, hp⟩ := (Option.any_eq_true p _).mp h
  exact ⟨s, .of_foldlM hs, hp⟩

end Service

end ZWS
