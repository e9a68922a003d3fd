import ZeekWebSocket.Sanity.Binding
import ZeekWebSocket.Sanity.Sample
import ZeekWebSocket.Sanity.Serve

/-! What the service hands to the stream. An accepted event is in the channel, in the outbox of
the binding or handed over, and moves through the three in the order of acceptance. -/

namespace ZWS

open Base

namespace Setup

def subscribeFrame (c : Setup) : Frame := .binary (c.subscriptions.payload c.platform)

def eventFrame (c : Setup) (e : String × Event) : Frame := .binary (payload c.platform e.1 e.2)

/-- The subscription and then the events. -/
def outbound (c : Setup) (events : List (String × Event)) : List Frame :=
  c.subscribeFrame :: events.map c.eventFrame

end Setup

namespace Phase

/-- The outbox of the binding was emptied. -/
def settled : Phase → Bool
  | .waiting _ => true
  | .calling _ _ => true
  | .draining => true
  | .closing => true
  | _ => false

end Phase

namespace Service

def queued (s : Service) : List Frame := s.binding.payloads.map .binary

/-- An acknowledgement was read in the handshake. -/
def Greeted (c : Setup) (s : Service) : Prop :=
  ∃ frame ∈ s.greeting, ∃ endpoint version,
    Message.ofFrame c.platform frame = .ok (.ack endpoint version)

/-- The subscription and the accepted events are handed over in order, nothing but the
subscription before the acknowledgement, and a close frame only as the last of all. -/
structure Delivered (c : Setup) (s : Service) : Prop where
  order : s.handed <+: c.outbound s.accepted ∨
    s.handed = c.outbound s.accepted ++ [closeFrame] ∧ s.outboxes = 0
  greeted : 1 < s.handed.length → s.Greeted c

/-- While `serve` runs, the events that `recv` has `taken` are handed over or queued, and the
others wait in the channel. -/
structure Pipeline (c : Setup) (s : Service) (taken : List (String × Event)) : Prop where
  conserve : taken ++ s.channel = s.accepted
  handed : s.handed ++ s.queued = c.outbound taken
  settled : s.phase.settled = true → s.queued = []
  early : s.phase.early = true → taken = []
  greeted : s.phase.early = true ∨ s.Greeted c
  closing : s.phase = .closing → s.channel = [] ∧ s.outboxes = 0

section
variable {c : Setup} {s s' : Service} {a : Action} {taken : List (String × Event)}

theorem outbound_mono {events events' : List (String × Event)} (h : events <+: events') :
    c.outbound events <+: c.outbound events' :=
  List.cons_prefix_cons.mpr ⟨rfl, h.map _⟩

theorem Pipeline.delivered (h : Pipeline c s taken) : Delivered c s where
  order := by
    left
    have h1 : s.handed <+: c.outbound taken := ⟨_, h.handed⟩
    exact h1.trans (outbound_mono ⟨_, h.conserve⟩)
  greeted hlen := by
    rcases h.greeted with he | hg
    · have hle : (s.handed ++ s.queued).length = 1 := by rw [h.handed, h.early he]; rfl
      rw [List.length_append] at hle
      omega
    · exact hg

/-- What was handed over does not depend on where `serve` is. -/
theorem Delivered.congr (h : Delivered c s) (hh : s'.handed = s.handed) (ha : s'.accepted = s.accepted)
    (ho : s'.outboxes = s.outboxes) (hg : s.greeting <+: s'.greeting) : Delivered c s' where
  order := by rw [hh, ha, ho]; exact h.order
  greeted hlen := by
    obtain ⟨frame, hmem, hack⟩ := h.greeted (hh ▸ hlen)
    exact ⟨frame, hg.subset hmem, hack⟩

theorem Delivered.stopped (h : Delivered c s) (ho : 0 < s.outboxes) {n : ℕ} :
    Delivered c { s with outboxes := n } where
  order := by
    rcases h.order with h | ⟨-, h⟩
    · exact .inl h
    · omega
  greeted := h.greeted

theorem pipeline_new : Pipeline c (new c) [] where
  conserve := rfl
  handed := rfl
  settled h := by simp [new, Phase.settled] at h
  early _ := rfl
  greeted := .inl rfl
  closing h := by simp [new] at h

/-- Past the acknowledgement `serve` goes from place to place with nothing queued. -/
theorem Pipeline.proceed (h : Pipeline c s taken) (hset : s.phase.settled = true) (hg : s'.Greeted c)
    (hch : s'.channel = s.channel) (hacc : s'.accepted = s.accepted) (hh : s'.handed = s.handed)
    (hout : s'.binding.outbox = s.binding.outbox) (he : s'.phase.early = false)
    (hcl : s'.phase = .closing → s'.channel = [] ∧ s'.outboxes = 0) : Pipeline c s' taken := by
  have hq : s'.queued = s.queued := by simp only [queued, Binding.payloads, hout]
  exact {
    conserve := by rw [hch, hacc]; exact h.conserve
    handed := by rw [hh, hq]; exact h.handed
    settled := fun _ => hq.trans (h.settled hset)
    early := fun he' => by simp [he] at he'
    greeted := .inr hg
    closing := hcl }

theorem Pipeline.hand (h : Pipeline c s taken) {site : Site} {data : ByteArray} {b : Binding}
    (hp : s.phase = .flushing site) (hb : s.binding.outgoing = (some data, b)) :
    Pipeline c { s with binding := b, handed := s.handed ++ [.binary data] } taken := by
  have hq : s.queued = .binary data :: b.payloads.map .binary := by
    rw [queued, (Binding.outgoing_some hb).1, List.map_cons]
  exact { h with
    handed := by
      rw [← h.handed, hq]
      simp [queued]
    settled := fun hs => by simp [hp, Phase.settled] at hs }

theorem Pipeline.flushed (h : Pipeline c s taken) {site : Site} {b : Binding}
    (hp : s.phase = .flushing site) (hb : s.binding.outgoing = (none, b)) :
    Pipeline c { s with binding := b, phase := .waiting site } taken := by
  obtain ⟨hq, rfl⟩ := Binding.outgoing_none hb
  have he : s.phase.early = (Phase.waiting site).early := by rw [hp]; cases site <;> rfl
  exact { h with
    settled := fun _ => by simp [queued, hq]
    early := fun he' => h.early (he.trans he')
    greeted := h.greeted.imp_left he.symm.trans
    closing := fun hc => nomatch hc }

theorem Pipeline.take (h : Pipeline c s taken) {topic : String} {event : Event}
    {channel : List (String × Event)} {b : Binding} (hp : s.phase = .waiting .select)
    (hc : s.channel = (topic, event) :: channel)
    (hb : s.binding.publishEvent c.platform topic event = (.ok b : Outcome Empty Binding)) :
    Pipeline c { s with channel := channel, binding := b, phase := .flushing .select }
      (taken ++ [(topic, event)]) := by
  have hq : s.queued = [] := h.settled (by rw [hp]; rfl)
  have hb' : b.payloads.map .binary = s.queued ++ [c.eventFrame (topic, event)] := by
    rw [(Binding.publishEvent_ok hb).1, List.map_append]
    rfl
  refine ⟨?_, ?_, fun hs => by simp [Phase.settled] at hs, fun he => by simp [Phase.early] at he, ?_,
    fun hc => nomatch hc⟩
  · rw [← h.conserve, hc]
    simp
  · have hh := h.handed
    rw [hq, List.append_nil] at hh
    show s.handed ++ b.payloads.map .binary = _
    rw [hb', hq, hh]
    simp [Setup.outbound]
  · exact .inr (h.greeted.resolve_left (by simp [hp, Phase.early]))

theorem Pipeline.push (h : Pipeline c s taken) {e : String × Event} (hcl : s.phase ≠ .closing) :
    Pipeline c { s with channel := s.channel ++ [e], accepted := s.accepted ++ [e] } taken :=
  { h with
    conserve := by rw [← h.conserve, List.append_assoc]
    closing := fun hc => absurd hc hcl }

/-- A step hands over, moves along or leaves alone. -/
theorem pipeline_moves (h : Pipeline c s taken) (hm : Moves c s a s') :
    (∃ taken', Pipeline c s' taken') ∨ s'.phase.listens = false ∧ Delivered c s' := by
  have hd := h.delivered
  have hg : s.phase.early = false → s.Greeted c := fun he => by simpa [he] using h.greeted
  cases hm with
  | connected hp =>
    exact .inl ⟨taken, { h with
      settled := fun hs => by simp [Phase.settled] at hs
      early := fun _ => h.early (by rw [hp]; rfl)
      greeted := .inl rfl
      closing := fun hc => nomatch hc }⟩
  | handed hp hb => exact .inl ⟨taken, h.hand hp hb⟩
  | handFailed hp hb => exact .inr ⟨rfl, (h.hand hp hb).delivered.congr rfl rfl rfl List.prefix_rfl⟩
  | flushed hp hb => exact .inl ⟨taken, h.flushed hp hb⟩
  | closed hp =>
    obtain ⟨hc, ho⟩ := h.closing hp
    have hq : s.queued = [] := h.settled (by rw [hp]; rfl)
    have hh := h.handed
    have hacc := h.conserve
    rw [hq, List.append_nil] at hh
    rw [hc, List.append_nil] at hacc
    refine .inr ⟨rfl, .inr ⟨?_, ho⟩, fun _ => hg (by rw [hp]; rfl)⟩
    simp only [finish, hh, hacc]
  | stopped => exact .inr ⟨rfl, hd.congr rfl rfl rfl List.prefix_rfl⟩
  | greetPing hp =>
    refine .inl ⟨taken, { h with greeted := .inl (by rw [hp]; rfl) }⟩
  | @greetAck frame endpoint version hp _ hack =>
    refine .inl ⟨taken, h.proceed (by rw [hp]; rfl) ?_ rfl rfl rfl rfl rfl fun hc => nomatch hc⟩
    exact ⟨frame, List.mem_append_right _ List.mem_cons_self, endpoint, version, hack⟩
  | greetRefused => exact .inr ⟨rfl, hd.congr rfl rfl rfl (List.prefix_append _ _)⟩
  | greetUndecodable => exact .inr ⟨rfl, hd.congr rfl rfl rfl (List.prefix_append _ _)⟩
  | greetPanicked => exact .inr ⟨rfl, hd.congr rfl rfl rfl (List.prefix_append _ _)⟩
  | receivePing => exact .inl ⟨taken, { h with }⟩
  | receiveMessage hp _ _ hb =>
    exact .inl ⟨taken, h.proceed (by rw [hp]; rfl) (hg (by rw [hp]; rfl)) rfl rfl rfl
      (Binding.handleIncoming_ok hb).2.1 rfl fun hc => nomatch hc⟩
  | receiveRejected => exact .inr ⟨rfl, hd.congr rfl rfl rfl List.prefix_rfl⟩
  | receiveUndecodable hp =>
    exact .inl ⟨taken, h.proceed (by rw [hp]; rfl) (hg (by rw [hp]; rfl)) rfl rfl rfl rfl rfl
      fun hc => nomatch hc⟩
  | receivePanicked => exact .inr ⟨rfl, hd.congr rfl rfl rfl List.prefix_rfl⟩
  | took hp hc hb => exact .inl ⟨_, h.take hp hc hb⟩
  | tookPanicked => exact .inr ⟨rfl, hd.congr rfl rfl rfl List.prefix_rfl⟩
  | tookNone hp hc ho =>
    exact .inl ⟨taken, h.proceed (by rw [hp]; rfl) (hg (by rw [hp]; rfl)) rfl rfl rfl rfl rfl
      fun _ => ⟨hc, ho⟩⟩
  | drainEvent hp hb =>
    exact .inl ⟨taken, h.proceed (by rw [hp]; rfl) (hg (by rw [hp]; rfl)) rfl rfl rfl
      (by rw [Binding.receiveEvent_frame hb]; rfl) rfl fun hc => nomatch hc⟩
  | drainError hp hb =>
    exact .inl ⟨taken, h.proceed (by rw [hp]; rfl) (hg (by rw [hp]; rfl)) rfl rfl rfl
      (by rw [Binding.receiveEvent_frame hb]; rfl) rfl fun hc => nomatch hc⟩
  | drained hp hb =>
    exact .inl ⟨taken, h.proceed (by rw [hp]; rfl) (hg (by rw [hp]; rfl)) rfl rfl rfl
      (by rw [Binding.receiveEvent_frame hb]) rfl fun hc => nomatch hc⟩
  | drainPanicked => exact .inr ⟨rfl, hd.congr rfl rfl rfl List.prefix_rfl⟩
  | @sent resume e todo hp =>
    have hpush := h.push (e := e) (by simp [hp])
    exact .inl ⟨taken, hpush.proceed (by simp [hp, Phase.settled]) (hg (by rw [hp]; rfl)) rfl rfl rfl
      rfl rfl fun hc => nomatch hc⟩
  | @returned resume hp =>
    exact .inl ⟨taken, h.proceed (by rw [hp]; rfl) (hg (by rw [hp]; rfl)) rfl rfl rfl rfl
      (by cases resume <;> rfl) fun hc => by cases resume <;> exact nomatch hc⟩
  | accepted _ ho =>
    refine .inl ⟨taken, h.push fun hc => ?_⟩
    have := (h.closing hc).2
    omega
  | cloned ho =>
    refine .inl ⟨taken, { h with closing := fun hc => ?_ }⟩
    have := (h.closing hc).2
    omega
  | dropped ho =>
    refine .inl ⟨taken, { h with closing := fun hc => ?_ }⟩
    have := (h.closing hc).2
    omega

/-- In every state that is reached. -/
theorem Serves.pipeline {as : List Action} (h : Serves c as s) :
    (∃ taken, Pipeline c s taken) ∨ s.phase.listens = false ∧ Delivered c s := by
  refine Serves.invariant (I := fun s =>
    (∃ taken, Pipeline c s taken) ∨ s.phase.listens = false ∧ Delivered c s)
    (.inl ⟨[], pipeline_new⟩) (fun s a s' hs hm => ?_) h
  rcases hs with ⟨taken, hs⟩ | ⟨hl, hd⟩
  · exact pipeline_moves hs hm
  · obtain ⟨ho, n, rfl⟩ := hm.of_stopped hl
    exact .inr ⟨hl, hd.stopped ho⟩

/-- Whatever the server, the client and the scheduler do, the subscription and the accepted
events go out in order, each once, and the close frame only when all is sent and all outboxes
are dropped; while `serve` waits for input, what is not sent is in the channel. -/
theorem serve_delivers (c : Setup) (as : List Action) (s : Service) (h : Serves c as s) :
    Delivered c s ∧ (s.phase = .waiting .select →
      s.handed ++ s.channel.map c.eventFrame = c.outbound s.accepted) := by
  rcases h.pipeline with ⟨taken, hp⟩ | ⟨hl, hd⟩
  · refine ⟨hp.delivered, fun hw => ?_⟩
    have hq : s.queued = [] := hp.settled (by rw [hw]; rfl)
    have hh := hp.handed
    rw [hq, List.append_nil] at hh
    rw [hh, ← hp.conserve]
    simp [Setup.outbound]
  · exact ⟨hd, fun hw => by simp [hw, Phase.listens] at hl⟩

end

/-- Publish once connected, then drop the outbox. -/
def pongClient : Setup :=
  Sample.setup fun
    | [.connected _ _] => [("/ping", .new "pong" [.count 1])]
    | _ => []

def pongLabels : List Action :=
  Sample.handshake ++ [.callbackSend, .drop, .callbackDone, .recv, .send (.ok ()), .flushed, .recv,
    .send (.ok ())]

theorem pong_delivered : ∃ s, Serves pongClient pongLabels s ∧ Delivered pongClient s ∧
    s.handed.length = 3 := by
  obtain ⟨s, hs, hlen⟩ : ∃ s, Serves pongClient pongLabels s ∧ (s.handed.length == 3) = true :=
    exists_serves rfl
  exact ⟨s, hs, (serve_delivers _ _ s hs).1, by simpa using hlen⟩

end Service

end ZWS
