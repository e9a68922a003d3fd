import ZeekWebSocket.Proofs.Incoming

/-! When a client can block its own service. The channel is emptied only in `select!`, which may
put that off for as long as frames arrive, so all that the callbacks ever send has to fit. -/

namespace ZWS

open Base

namespace Setup

/-- How much the callbacks send, after some that were made `before`. -/
def demandAfter (c : Setup) (before : List Callback) : List Callback → ℕ
  | [] => 0
  | callback :: callbacks =>
    (c.sends (before ++ [callback])).length + c.demandAfter (before ++ [callback]) callbacks

/-- How much the callbacks send altogether. -/
def demand (c : Setup) (callbacks : List Callback) : ℕ := c.demandAfter [] callbacks

theorem demandAfter_append (c : Setup) (before callbacks callbacks' : List Callback) :
    c.demandAfter before (callbacks ++ callbacks') =
      c.demandAfter before callbacks + c.demandAfter (before ++ callbacks) callbacks' := by
  induction callbacks generalizing before with
  | nil => simp [demandAfter]
  | cons callback callbacks ih =>
    simp only [List.cons_append, demandAfter, ih, List.append_assoc, List.nil_append]
    omega

theorem demand_snoc (c : Setup) (callbacks : List Callback) (callback : Callback) :
    c.demand (callbacks ++ [callback]) =
      c.demand callbacks + (c.sends (callbacks ++ [callback])).length := by
  simp [demand, demandAfter_append, demandAfter]

theorem demand_append_le (c : Setup) (callbacks callbacks' : List Callback) :
    c.demand callbacks ≤ c.demand (callbacks ++ callbacks') := by
  simp [demand, demandAfter_append]

end Setup

def Phase.todo : Phase → List (String × Event)
  | .calling _ todo => todo
  | _ => []

def Action.isAccept : Action → Bool
  | .accept _ _ => true
  | _ => false

namespace Service

/-- `serve` is suspended in a callback that waits for room in the channel. -/
def Stuck (c : Setup) (s : Service) : Prop :=
  s.phase.todo ≠ [] ∧ c.config.outboxSize ≤ s.channel.length

section
variable {c : Setup} {s s' : Service} {a : Action} {as : List Action}

/-- What is in the channel was sent by a callback or from elsewhere. -/
structure Occupied (c : Setup) (as : List Action) (s : Service) : Prop where
  todo : s.phase.todo.length ≤ c.demand s.callbacks
  channel : s.channel.length + s.phase.todo.length ≤ c.demand s.callbacks + as.countP Action.isAccept

theorem countP_snoc_le (as : List Action) (a : Action) :
    as.countP Action.isAccept ≤ (as ++ [a]).countP Action.isAccept := by
  simp

theorem Occupied.keep (h : Occupied c as s) (hc : s'.callbacks = s.callbacks)
    (hch : s'.channel.length ≤ s.channel.length) (htodo : s'.phase.todo.length ≤ s.phase.todo.length) :
    Occupied c (as ++ [a]) s' := by
  have h1 := h.todo
  have h2 := h.channel
  have h3 := countP_snoc_le as a
  refine ⟨?_, ?_⟩
  · rw [hc]
    omega
  · rw [hc]
    omega

/-- A callback begins when the last one has sent all it had to. -/
theorem Occupied.call (h : Occupied c as s) (hc : s'.callbacks = s.callbacks)
    (hch : s'.channel = s.channel) {callback : Callback} {resume : Resume} :
    Occupied c (as ++ [a]) (s'.call c callback resume) := by
  have h2 := h.channel
  have h3 := countP_snoc_le as a
  have hdemand := c.demand_snoc s.callbacks callback
  have hle : (s'.call c callback resume).phase.todo.length ≤
      (c.sends (s.callbacks ++ [callback])).length := by
    simp only [Service.call, Phase.todo, hc]
    split
    · simp
    · exact le_rfl
  refine ⟨?_, ?_⟩
  · simp only [Service.call, hc] at hle ⊢
    omega
  · simp only [Service.call, hc, hch] at hle ⊢
    omega

theorem occupied_moves (h : Occupied c as s) (hm : Moves c s a s') : Occupied c (as ++ [a]) s' := by
  cases hm with
  | greetAck => refine h.call ?_ ?_ <;> rfl
  | receiveUndecodable => refine h.call ?_ ?_ <;> rfl
  | drainEvent => refine h.call ?_ ?_ <;> rfl
  | drainError => refine h.call ?_ ?_ <;> rfl
  | took hp hc =>
    refine h.keep rfl ?_ (Nat.zero_le _)
    rw [hc]
    exact Nat.le_succ _
  | tookPanicked hp hc =>
    refine h.keep rfl ?_ (Nat.zero_le _)
    rw [hc]
    exact Nat.le_succ _
  | sent hp =>
    have h1 := h.todo
    have h2 := h.channel
    simp only [hp, Phase.todo, List.length_cons] at h1 h2
    refine ⟨?_, ?_⟩
    · simp only [Phase.todo]
      omega
    · simp only [Phase.todo, List.length_append, List.length_singleton, List.countP_append]
      omega
  | @returned resume hp => exact h.keep rfl le_rfl (by cases resume <;> exact Nat.zero_le _)
  | accepted =>
    have h2 := h.channel
    refine ⟨h.todo, ?_⟩
    simp only [List.length_append, List.length_singleton, List.countP_append, List.countP_singleton,
      Action.isAccept]
    simp only [reduceIte]
    omega
  | greetPing => exact h.keep rfl le_rfl le_rfl
  | receivePing => exact h.keep rfl le_rfl le_rfl
  | handed => exact h.keep rfl le_rfl le_rfl
  | cloned => exact h.keep rfl le_rfl le_rfl
  | dropped => exact h.keep rfl le_rfl le_rfl
  | _ => exact h.keep rfl le_rfl (Nat.zero_le _)

/-- In every state that is reached. -/
theorem Serves.occupied (h : Serves c as s) : Occupied c as s := by
  refine Serves.invariant_labels ⟨?_, ?_⟩ (fun as s a s' hs hm => occupied_moves hs hm) h
  · simp [new, Phase.todo]
  · simp [new, Phase.todo]

/-- A client whose callbacks never send more than fits is never stuck. -/
theorem Serves.not_stuck (h : Serves c as s)
    (hfits : ∀ frames, c.demand (Talk.listen c .greeting frames).2 = 0 ∨
      c.demand (Talk.listen c .greeting frames).2 + as.countP Action.isAccept ≤ c.config.outboxSize) :
    ¬ Stuck c s := by
  intro hstuck
  obtain ⟨htodo, hfull⟩ := hstuck
  obtain ⟨talk, hlisten, -⟩ := h.follows.talk
  have hle := c.demand_append_le s.callbacks s.pending
  have h1 := h.occupied.todo
  have h2 := h.occupied.channel
  have hpos := List.length_pos_iff.mpr htodo
  have hfits' := hfits (s.greeting ++ s.received)
  rw [hlisten] at hfits'
  simp only at hfits'
  omega

/-- Some labels, `n` of them accepted events from elsewhere, lead from one state to another. -/
def Reaches (c : Setup) (s : Service) (n : ℕ) (s' : Service) : Prop :=
  ∃ as, Run (step c) s as s' ∧ as.countP Action.isAccept = n

theorem Reaches.refl : Reaches c s 0 s := ⟨[], .nil, rfl⟩

theorem Reaches.trans {m n : ℕ} {s'' : Service} (h : Reaches c s m s') (h' : Reaches c s' n s'') :
    Reaches c s (m + n) s'' := by
  obtain ⟨as, hrun, rfl⟩ := h
  obtain ⟨as', hrun', rfl⟩ := h'
  exact ⟨as ++ as', hrun.append hrun', List.countP_append⟩

theorem Reaches.single (h : s.step c a = some s') : Reaches c s ([a].countP Action.isAccept) s' :=
  ⟨[a], .single h, rfl⟩

/-- `serve` waits for the next frame of a conversation. -/
structure Ready (s : Service) (talk : Talk) : Prop where
  phase : ∃ site, s.phase = .waiting site
  place : s.phase.At s.binding.acknowledged talk
  inbox : s.binding.inbox.messages = []
  outbox : 0 < s.outboxes

/-- `serve` is suspended in a callback after which the conversation goes on. -/
structure Suspended (s : Service) (todo : List (String × Event)) (talk : Talk) : Prop where
  phase : ∃ resume, s.phase = .calling resume todo
  place : talk = .loop s.binding.acknowledged
  inbox : s.binding.inbox.messages = []
  outbox : 0 < s.outboxes

theorem Suspended.send {e : String × Event} {todo : List (String × Event)} {talk : Talk}
    (h : Suspended s (e :: todo) talk) (hroom : s.channel.length < c.config.outboxSize) :
    ∃ s', Reaches c s 0 s' ∧ Suspended s' todo talk ∧
      s'.channel.length = s.channel.length + 1 ∧ s'.callbacks = s.callbacks := by
  obtain ⟨resume, hp⟩ := h.phase
  have hstep : s.step c .callbackSend = some { s with
      phase := .calling resume todo, channel := s.channel ++ [e], accepted := s.accepted ++ [e] } := by
    simp [step, callbackSend, hp, push, hroom]
  exact ⟨_, .single hstep, ⟨⟨resume, rfl⟩, h.place, h.inbox, h.outbox⟩, by simp, rfl⟩

theorem Suspended.sendAll (es todo : List (String × Event)) {talk : Talk}
    (h : Suspended s (es ++ todo) talk) (hroom : s.channel.length + es.length ≤ c.config.outboxSize) :
    ∃ s', Reaches c s 0 s' ∧ Suspended s' todo talk ∧
      s'.channel.length = s.channel.length + es.length ∧ s'.callbacks = s.callbacks := by
  induction es generalizing s with
  | nil => exact ⟨s, .refl, h, rfl, rfl⟩
  | cons e es ih =>
    rw [List.length_cons] at hroom
    obtain ⟨s₁, hr, hs, hch, hc⟩ := Suspended.send (c := c) h (by omega)
    obtain ⟨s₂, hr', hs', hch', hc'⟩ := ih hs (by omega)
    refine ⟨s₂, hr.trans hr', hs', ?_, hc'.trans hc⟩
    rw [hch', hch, List.length_cons]
    omega

/-- Events from elsewhere take the room that is left. -/
theorem Suspended.accept {todo : List (String × Event)} {talk : Talk} (h : Suspended s todo talk)
    (n : ℕ) (hroom : s.channel.length + n ≤ c.config.outboxSize) :
    ∃ s', Reaches c s n s' ∧ Suspended s' todo talk ∧ s'.channel.length = s.channel.length + n := by
  induction n generalizing s with
  | zero => exact ⟨s, .refl, h, rfl⟩
  | succ n ih =>
    obtain ⟨resume, hp⟩ := h.phase
    have hstep : s.step c (.accept "" (.new "" [])) = some { s with
        channel := s.channel ++ [("", .new "" [])], accepted := s.accepted ++ [("", .new "" [])] } := by
      have hlt : s.channel.length < c.config.outboxSize := by omega
      simp [step, Service.accept, hp, Phase.listens, h.outbox, push, hlt]
    obtain ⟨s', hr, hs, hch⟩ := ih (s := { s with
      channel := s.channel ++ [("", .new "" [])], accepted := s.accepted ++ [("", .new "" [])] })
      ⟨⟨resume, hp⟩, h.place, h.inbox, h.outbox⟩ (by simp; omega)
    refine ⟨s', ?_, hs, ?_⟩
    · rw [Nat.add_comm]
      exact (Reaches.single hstep).trans hr
    · rw [hch]
      simp
      omega

/-- A callback with more to send than there is room for blocks the service. -/
theorem Suspended.stuck {todo : List (String × Event)} {talk : Talk} (elsewhere : ℕ)
    (h : Suspended s todo talk) (htodo : todo ≠ []) (hroom : s.channel.length ≤ c.config.outboxSize)
    (hfull : c.config.outboxSize < s.channel.length + todo.length + elsewhere) :
    ∃ n ≤ elsewhere, ∃ s', Reaches c s n s' ∧ Stuck c s' := by
  have hpos := List.length_pos_iff.mpr htodo
  -- all but the last event are sent, as far as there is room
  let j := min (todo.length - 1) (c.config.outboxSize - s.channel.length)
  have hj : (todo.take j).length = j := by
    rw [List.length_take]
    omega
  have hrest : todo.drop j ≠ [] := by
    rw [Ne, List.drop_eq_nil_iff]
    omega
  obtain ⟨s₁, hr, hs, hch, -⟩ := Suspended.sendAll (c := c) (todo.take j) (todo.drop j)
    (by rwa [List.take_append_drop]) (by omega)
  obtain ⟨s₂, hr', hs', hch'⟩ := Suspended.accept (c := c) hs
    (c.config.outboxSize - (s.channel.length + j)) (by omega)
  obtain ⟨resume, hp⟩ := hs'.phase
  refine ⟨_, ?_, s₂, hr.trans hr', ?_, ?_⟩
  · omega
  · rw [hp]
    exact hrest
  · omega

/-- A callback that has sent all it had to gives way to the next frame. -/
theorem Suspended.resume {talk : Talk} (h : Suspended s [] talk) :
    ∃ s', Reaches c s 0 s' ∧ Ready s' talk ∧ s'.channel = s.channel ∧ s'.callbacks = s.callbacks := by
  obtain ⟨resume, hp⟩ := h.phase
  have hdone : s.step c .callbackDone = some { s with phase := resume.phase } := by
    simp [step, callbackDone, hp]
  have hready : Ready { s with phase := .waiting .select } talk :=
    ⟨⟨.select, rfl⟩, h.place, h.inbox, h.outbox⟩
  cases resume with
  | select => exact ⟨_, .single hdone, hready, rfl, rfl⟩
  | drain =>
    have hdrain : Service.step c { s with phase := Resume.drain.phase } .drain =
        some { s with phase := .waiting .select } := by
      simp [step, drain, Resume.phase, Binding.receiveEvent_empty h.inbox]
    exact ⟨_, (Reaches.single hdone).trans (.single hdrain), hready, rfl, rfl⟩

/-- What a frame does to a service that waits for it. -/
def Answers (c : Setup) (s : Service) (answer : Talk × List Callback) (s' : Service) : Prop :=
  s'.channel = s.channel ∧
    (answer.2 = [] ∧ s'.callbacks = s.callbacks ∧ Ready s' answer.1 ∨
      ∃ callback, answer.2 = [callback] ∧ s'.callbacks = s.callbacks ++ [callback] ∧
        Suspended s' (c.sends (s.callbacks ++ [callback])) answer.1)

theorem Ready.call {callback : Callback} {resume : Resume} {talk : Talk}
    (hplace : talk = .loop s.binding.acknowledged) (hinbox : s.binding.inbox.messages = [])
    (ho : 0 < s.outboxes) :
    Suspended (s.call c callback resume) (c.sends (s.callbacks ++ [callback])) talk :=
  ⟨⟨resume, by simp [Service.call]; omega⟩, hplace, hinbox, ho⟩

theorem Ready.greet {frame : Frame} (h : Ready s .greeting)
    (hgo : (Talk.read c .greeting frame).1.goesOn) :
    ∃ s', Reaches c s 0 s' ∧ Answers c s (Talk.read c .greeting frame) s' := by
  obtain ⟨site, hp⟩ := h.phase
  have hplace := h.place
  obtain ⟨rfl, hack⟩ : site = .handshake ∧ s.binding.acknowledged = false := by
    rw [hp] at hplace
    cases site with
    | handshake => exact ⟨rfl, hplace.2⟩
    | select => simp [Phase.At, Phase.early] at hplace
  have hstep : s.step c (.next (some (.ok frame))) = some (s.greet c frame) := by
    simp [step, next, hp]
  refine ⟨_, .single hstep, ?_⟩
  cases hf : frame.isPing with
  | true =>
    rw [Talk.greeting_ping hf]
    simp only [Service.greet, hf, if_true]
    exact ⟨rfl, .inl ⟨rfl, rfl, ⟨.handshake, hp⟩, hplace, h.inbox, h.outbox⟩⟩
  | false =>
    cases hm : Message.ofFrame c.platform frame with
    | ok m =>
      cases m with
      | ack endpoint version =>
        rw [Talk.greeting_ack hf hm]
        simp only [Service.greet, hf, hm]
        exact ⟨rfl, .inr ⟨_, rfl, rfl, Ready.call (congrArg Talk.loop hack.symm) h.inbox h.outbox⟩⟩
      | _ =>
        rw [Talk.greeting_refused hf hm rfl] at hgo
        exact hgo.elim
    | err e =>
      rw [Talk.greeting_undecodable hf hm] at hgo
      exact hgo.elim
    | panic =>
      rw [Talk.greeting_panicked hf hm] at hgo
      exact hgo.elim

theorem step_drain_returned {d : Except ProtocolError (String × Event)} {b : Binding}
    (hp : s.phase = .draining) (hb : s.binding.receiveEvent = (Binding.returned d, b)) :
    s.step c .drain = some ({ s with binding := b }.call c (.ofDelivery d) .drain) := by
  cases d <;> simp [step, drain, hp, hb, Binding.returned, Callback.ofDelivery]

/-- A message that the binding took is reported at once if it is to be reported at all. -/
theorem answers_message {m : Message} (hp : s.phase = .draining) (hcoh : s.binding.Coherent)
    (hdeliv : s.binding.deliveries = m.delivery.toList) (ho : 0 < s.outboxes) :
    ∃ s', Reaches c s 0 s' ∧ Answers c s
      (.loop s.binding.acknowledged, m.delivery.toList.map Callback.ofDelivery) s' := by
  cases hd : m.delivery with
  | none =>
    have hnil := hcoh.inbox_nil (by rw [hdeliv, hd]; rfl)
    have hstep : s.step c .drain = some { s with phase := .waiting .select } := by
      simp [step, drain, hp, Binding.receiveEvent_empty hnil]
    exact ⟨_, .single hstep, rfl, .inl ⟨rfl, rfl, ⟨.select, rfl⟩, rfl, hnil, ho⟩⟩
  | some d =>
    rw [hd] at hdeliv
    rcases Binding.receiveEvent_cases hcoh with ⟨hnil, -⟩ | ⟨d', inbox, hb, hq, hcoh'⟩
    · simp [Binding.deliveries, hnil] at hdeliv
    · obtain ⟨rfl, hrest⟩ := List.cons.inj (hdeliv.symm.trans hq)
      refine ⟨_, .single (step_drain_returned hp hb), rfl, .inr ⟨_, rfl, rfl, ?_⟩⟩
      exact Ready.call rfl (hcoh'.inbox_nil hrest.symm) ho

theorem Ready.receive {frame : Frame} {acknowledged : Bool} (h : Ready s (.loop acknowledged))
    (hgo : (Talk.read c (.loop acknowledged) frame).1.goesOn) :
    ∃ s', Reaches c s 0 s' ∧ Answers c s (Talk.read c (.loop acknowledged) frame) s' := by
  obtain ⟨site, hp⟩ := h.phase
  have hplace := h.place
  obtain ⟨rfl, rfl⟩ : site = .select ∧ acknowledged = s.binding.acknowledged := by
    rw [hp] at hplace
    cases site with
    | handshake => simp [Phase.At, Phase.early] at hplace
    | select => exact ⟨rfl, Talk.loop.inj hplace⟩
  have hstep : s.step c (.next (some (.ok frame))) = some (s.receive c frame) := by
    simp [step, next, hp]
  cases hf : frame.isPing with
  | true =>
    rw [Talk.loop_ping hf]
    refine ⟨_, .single hstep, ?_⟩
    simp only [Service.receive, hf, if_true]
    exact ⟨rfl, .inl ⟨rfl, rfl, ⟨.select, hp⟩, hplace, h.inbox, h.outbox⟩⟩
  | false =>
    cases hm : Message.ofFrame c.platform frame with
    | ok m =>
      rcases hb : s.binding.handleIncoming m with ⟨e | _, b⟩
      · have hv := Binding.handleIncoming_verdict s.binding m
        rw [hb] at hv
        rw [Talk.loop_rejected hf hm hv.symm] at hgo
        exact hgo.elim
      · have hv := Binding.handleIncoming_verdict s.binding m
        rw [hb] at hv
        obtain ⟨hdeliv, -, hack, hcoh⟩ := Binding.handleIncoming_ok hb
        have hempty : s.binding.deliveries = [] := by simp [Binding.deliveries, h.inbox]
        have hcoh' : s.binding.Coherent := by simp [Binding.Coherent, h.inbox]
        have hnext : s.receive c frame =
            { s with received := s.received ++ [frame], binding := b, phase := .draining } := by
          simp [Service.receive, hf, hm, hb]
        obtain ⟨s', hr, hans⟩ := answers_message (c := c) (m := m)
          (s := { s with received := s.received ++ [frame], binding := b, phase := .draining })
          rfl (hcoh hcoh') (by rw [hdeliv, hempty, List.nil_append]) h.outbox
        rw [Talk.loop_message hf hm hv.symm, ← hack]
        exact ⟨s', (Reaches.single (hnext ▸ hstep)).trans hr, hans⟩
    | err e =>
      rw [Talk.loop_undecodable hf hm]
      refine ⟨_, .single hstep, ?_⟩
      simp only [Service.receive, hf, hm]
      exact ⟨rfl, .inr ⟨_, rfl, rfl, Ready.call rfl h.inbox h.outbox⟩⟩
    | panic =>
      rw [Talk.loop_panicked hf hm] at hgo
      exact hgo.elim

theorem Ready.answers {talk : Talk} {frame : Frame} (h : Ready s talk)
    (hgo : (Talk.read c talk frame).1.goesOn) :
    ∃ s', Reaches c s 0 s' ∧ Answers c s (Talk.read c talk frame) s' := by
  cases talk with
  | greeting => exact h.greet hgo
  | loop acknowledged => exact h.receive hgo
  | _ => exact hgo.elim

/-- A callback blocks the service by itself, or with what comes from elsewhere if no callback
after it sends anything, or leaves that to the callbacks after it. -/
theorem Suspended.blocks {talk : Talk} {callbacks : List Callback} {elsewhere : ℕ}
    (h : Suspended s (c.sends s.callbacks) talk)
    (hlater : ∀ {s' : Service}, Ready s' talk → s'.channel.length ≤ c.config.outboxSize →
      0 < c.demandAfter s'.callbacks callbacks →
      c.config.outboxSize < s'.channel.length + c.demandAfter s'.callbacks callbacks + elsewhere →
      ∃ n ≤ elsewhere, ∃ s'', Reaches c s' n s'' ∧ Stuck c s'')
    (hroom : s.channel.length ≤ c.config.outboxSize)
    (hpos : 0 < (c.sends s.callbacks).length + c.demandAfter s.callbacks callbacks)
    (hfull : c.config.outboxSize < s.channel.length +
      ((c.sends s.callbacks).length + c.demandAfter s.callbacks callbacks) + elsewhere) :
    ∃ n ≤ elsewhere, ∃ s', Reaches c s n s' ∧ Stuck c s' := by
  by_cases hover : c.config.outboxSize < s.channel.length + (c.sends s.callbacks).length
  · have hne : c.sends s.callbacks ≠ [] := by
      rw [← List.length_pos_iff]
      omega
    obtain ⟨n, hn, s', hr, hstuck⟩ := Suspended.stuck (c := c) 0 h hne hroom (by omega)
    exact ⟨n, by omega, s', hr, hstuck⟩
  · by_cases hlast : c.demandAfter s.callbacks callbacks = 0
    · have hne : c.sends s.callbacks ≠ [] := by
        rw [← List.length_pos_iff]
        omega
      exact Suspended.stuck elsewhere h hne hroom (by omega)
    · obtain ⟨s₁, hr, hs, hch, hc⟩ := Suspended.sendAll (c := c) (c.sends s.callbacks) []
        (by rwa [List.append_nil]) (by omega)
      obtain ⟨s₂, hr', hready, hch', hc'⟩ := Suspended.resume (c := c) hs
      have hlen : s₂.channel.length = s.channel.length + (c.sends s.callbacks).length := by
        rw [hch', hch]
      have hcs : s₂.callbacks = s.callbacks := hc'.trans hc
      obtain ⟨n, hn, s₃, hr'', hstuck⟩ := hlater hready (by omega) (by rw [hcs]; omega)
        (by rw [hcs, hlen]; omega)
      exact ⟨0 + 0 + n, by omega, s₃, (hr.trans hr').trans hr'', hstuck⟩

/-- The callbacks of `frames` can block the service if they send too much, or if what is sent
`elsewhere` makes it too much. -/
theorem Ready.stuck {talk : Talk} (frames : List Frame) (elsewhere : ℕ) (h : Ready s talk)
    (hroom : s.channel.length ≤ c.config.outboxSize)
    (hpos : 0 < c.demandAfter s.callbacks (Talk.listen c talk frames).2)
    (hfull : c.config.outboxSize <
      s.channel.length + c.demandAfter s.callbacks (Talk.listen c talk frames).2 + elsewhere) :
    ∃ n ≤ elsewhere, ∃ s', Reaches c s n s' ∧ Stuck c s' := by
  induction frames generalizing s talk with
  | nil => simp [Talk.listen, feed, Setup.demandAfter] at hpos
  | cons frame frames ih =>
    by_cases hgo : (Talk.read c talk frame).1.goesOn
    · obtain ⟨s₁, hr, hch, hans⟩ := h.answers (c := c) hgo
      have hsplit : (Talk.listen c talk (frame :: frames)).2 =
        (Talk.read c talk frame).2 ++ (Talk.listen c (Talk.read c talk frame).1 frames).2 := rfl
      rw [hsplit] at hpos hfull
      rcases hans with ⟨hnil, hc, hready⟩ | ⟨callback, hone, hc, hsusp⟩
      · rw [hnil, List.nil_append, ← hc] at hpos hfull
        obtain ⟨n, hn, s₂, hr', hstuck⟩ := ih hready (by rwa [hch]) hpos (by rwa [hch])
        exact ⟨0 + n, by omega, s₂, hr.trans hr', hstuck⟩
      · rw [hone, List.singleton_append, Setup.demandAfter, ← hc] at hpos hfull
        rw [← hc] at hsusp
        rw [← hch] at hroom hfull
        obtain ⟨n, hn, s₂, hr', hstuck⟩ := hsusp.blocks ih hroom hpos hfull
        exact ⟨0 + n, by omega, s₂, hr.trans hr', hstuck⟩
    · have hnil : (Talk.listen c talk (frame :: frames)).2 = [] := by
        show (Talk.read c talk frame).2 ++ (Talk.listen c (Talk.read c talk frame).1 frames).2 = []
        rw [Talk.read_over hgo, Talk.listen_over hgo]
        rfl
      simp [hnil, Setup.demandAfter] at hpos

/-- Connected and subscribed. -/
theorem ready_new (c : Setup) : ∃ s, Reaches c (new c) 0 s ∧ Ready s .greeting ∧ s.channel = [] ∧
    s.callbacks = [] := by
  have hrun : [Action.connect (.ok ()), .send (.ok ()), .flushed].foldlM (step c) (new c) =
      some { new c with
        phase := .waiting .handshake
        binding := { (new c).binding with outbox := ⟨[]⟩ }
        handed := [.binary (c.subscriptions.toFrame c.platform).intoData] } := rfl
  exact ⟨_, ⟨_, .of_foldlM hrun, rfl⟩, ⟨⟨.handshake, rfl⟩, ⟨rfl, rfl⟩, rfl, Nat.one_pos⟩,
    rfl, rfl⟩

end

/-- With at most so many events sent from elsewhere, a client never blocks its service exactly
if its callbacks send nothing, or all they ever send fits into the channel besides these. -/
theorem never_stuck_iff (c : Setup) (elsewhere : ℕ) :
    (∀ as s, Serves c as s → as.countP Action.isAccept ≤ elsewhere → ¬ Stuck c s) ↔
      ∀ frames, c.demand (Talk.listen c .greeting frames).2 = 0 ∨
        c.demand (Talk.listen c .greeting frames).2 + elsewhere ≤ c.config.outboxSize := by
  refine ⟨?_, ?_⟩
  · intro h frames
    by_contra hnot
    obtain ⟨s, hr, hready, hch, hc⟩ := ready_new c
    obtain ⟨n, hn, s', hr', hstuck⟩ := hready.stuck (c := c) frames elsewhere (by simp [hch])
      (by rw [hc]; simp only [Setup.demand] at hnot; omega)
      (by rw [hc, hch, List.length_nil]; simp only [Setup.demand] at hnot; omega)
    obtain ⟨as, hrun, hcount⟩ := hr.trans hr'
    exact h as s' hrun (by omega) hstuck
  · intro h as s hs hcount
    refine hs.not_stuck fun frames => (h frames).imp id fun hle => ?_
    omega

/-- A client that sends two events once it is connected. -/
def eagerClient : Setup :=
  Sample.setup fun
    | [.connected _ _] => [("/ping", .new "ping" []), ("/ping", .new "ping" [])]
    | _ => []

theorem eager_stuck : ¬ ∀ c as s, Serves c as s → ¬ Stuck c s := by
  intro h
  obtain ⟨s, hs, hp⟩ : ∃ s, Serves eagerClient (Sample.handshake ++ [.callbackSend]) s ∧
      (s.phase.todo.length == 1 && s.channel.length == 1 : Bool) = true := exists_serves rfl
  simp only [Bool.and_eq_true, beq_iff_eq] at hp
  refine h _ _ s hs ⟨?_, ?_⟩
  · rw [← List.length_pos_iff]
    omega
  · exact hp.2.ge

end Service

end ZWS
