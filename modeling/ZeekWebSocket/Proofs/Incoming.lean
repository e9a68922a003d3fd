import ZeekWebSocket.Sanity.Sample
import ZeekWebSocket.Sanity.Talk

/-! What the client is told. The callbacks are those of the frames that were read, one after the
other, and none is outstanding when the service waits for more. -/

namespace ZWS

open Base

/-- The callbacks that a frame of the main loop calls for. -/
def callbacksOf (P : Platform) (frame : Frame) : List Callback :=
  if frame.isPing then []
  else
    match Message.ofFrame P frame with
    | .ok (.dataMessage topic (.event event)) => [.event topic event]
    | .ok (.error code context) => [.error (.zeekError code context)]
    | .err e => [.error (.deserializationError e)]
    | _ => []

namespace Service

/-- What was reported to the client, at any point of a run. -/
structure Reported (c : Setup) (s : Service) : Prop where
  callbacks : s.callbacks = [] ∧ s.received = [] ∨
    ∃ endpoint version cs, s.callbacks = .connected endpoint version :: cs ∧
      (∀ endpoint version, .connected endpoint version ∉ cs) ∧
      cs ++ s.pending = s.received.flatMap (callbacksOf c.platform)
  /-- nothing is outstanding in `select!` and on a regular exit -/
  idle : s.phase = .waiting .select ∨ s.phase = .finished (.ok ()) → s.binding.inbox.messages = []
  /-- data that is no event is fatal, after all that was read before it is reported -/
  rejected : ∀ before frame after topic v, s.received = before ++ frame :: after →
    Message.ofFrame c.platform frame = .ok (.dataMessage topic (.other v)) →
    after = [] ∧ s.phase = .finished (.error (.protocolError (.unexpectedEventPayload v))) ∧
      ∃ endpoint version,
        s.callbacks = .connected endpoint version :: before.flatMap (callbacksOf c.platform)
  /-- a frame that cannot be decoded is reported at once, and `serve` goes on after it -/
  undecodable : ∀ frame e, s.phase = .waiting .select → frame.isPing = false →
    Message.ofFrame c.platform frame = .err e →
    ∃ s' todo, s.step c (.next (some (.ok frame))) = some s' ∧
      s'.callbacks = s.callbacks ++ [.error (.deserializationError e)] ∧
      s'.phase = .calling .select todo

section
variable {c : Setup} {s : Service}

theorem read_loop (acknowledged : Bool) (frame : Frame) :
    (Talk.read c (.loop acknowledged) frame).2 = callbacksOf c.platform frame := by
  unfold callbacksOf
  cases hf : frame.isPing with
  | true => simp [Talk.loop_ping hf]
  | false =>
    cases hm : Message.ofFrame c.platform frame with
    | ok m =>
      cases hv : Binding.verdict acknowledged m with
      | ok =>
        rw [Talk.loop_message hf hm hv]
        cases m with
        | dataMessage topic data => cases data <;> rfl
        | _ => rfl
      | error e =>
        rw [Talk.loop_rejected hf hm hv]
        cases m with
        | dataMessage topic data => cases data <;> simp_all [Binding.verdict]
        | _ => simp_all [Binding.verdict]
    | err e => simp [Talk.loop_undecodable hf hm]
    | panic => simp [Talk.loop_panicked hf hm]

theorem eq_loop {talk : Talk} (h : talk ≠ .greeting) (hgo : talk.goesOn) :
    ∃ acknowledged, talk = .loop acknowledged := by
  cases talk with
  | greeting => exact absurd rfl h
  | loop acknowledged => exact ⟨acknowledged, rfl⟩
  | _ => exact hgo.elim

/-- A conversation that goes on to its last frame has the callbacks of its frames. -/
theorem listen_loop {received : List Frame} {acknowledged : Bool}
    (hlive : ∀ before frame after, received = before ++ frame :: after →
      (Talk.listen c (.loop acknowledged) before).1.goesOn) :
    (Talk.listen c (.loop acknowledged) received).2 = received.flatMap (callbacksOf c.platform) := by
  induction received generalizing acknowledged with
  | nil => rfl
  | cons frame frames ih =>
    have hread := read_loop (c := c) acknowledged frame
    have hrest : (Talk.listen c (Talk.read c (.loop acknowledged) frame).1 frames).2 =
        frames.flatMap (callbacksOf c.platform) := by
      cases frames with
      | nil => rfl
      | cons frame' frames' =>
        have hgo := hlive [frame] frame' frames' rfl
        have hne : (Talk.listen c (.loop acknowledged) [frame]).1 ≠ .greeting :=
          Talk.listen_ne_greeting (by simp) _
        obtain ⟨acknowledged', hnext⟩ := eq_loop hne hgo
        have hnext' : (Talk.read c (.loop acknowledged) frame).1 = .loop acknowledged' := hnext
        rw [hnext']
        refine ih fun before f after heq => ?_
        have := hlive (frame :: before) f after (by rw [heq]; rfl)
        rw [← hnext']
        exact this
    rw [List.flatMap_cons, ← hread, ← hrest]
    rfl

theorem connected_not_mem_callbacksOf {P : Platform} {frame : Frame} {endpoint version : String} :
    .connected endpoint version ∉ callbacksOf P frame := by
  unfold callbacksOf
  split
  · simp
  · split <;> simp

theorem connected_not_mem_pending {endpoint version : String} :
    .connected endpoint version ∉ s.pending := by
  intro h
  obtain ⟨d, -, hd⟩ := List.mem_map.mp h
  cases d <;> simp [Callback.ofDelivery] at hd

/-- After the handshake the conversation is that of the main loop. -/
theorem Follows.inLoop (h : Follows c s) {endpoint version : String}
    (hmet : Talk.listen c .greeting s.greeting = (.loop false, [.connected endpoint version])) :
    (∀ before frame after, s.received = before ++ frame :: after →
      (Talk.listen c (.loop false) before).1.goesOn) ∧
    ∃ talk, Talk.listen c (.loop false) s.received = (talk, s.received.flatMap (callbacksOf c.platform)) ∧
      s.callbacks ++ s.pending =
        .connected endpoint version :: s.received.flatMap (callbacksOf c.platform) ∧
      s.phase.At s.binding.acknowledged talk := by
  have happ : ∀ frames, Talk.listen c .greeting (s.greeting ++ frames) =
      ((Talk.listen c (.loop false) frames).1,
        [.connected endpoint version] ++ (Talk.listen c (.loop false) frames).2) := by
    intro frames
    rw [Talk.listen] at hmet ⊢
    rw [feed_append, hmet]
  have hlive : ∀ before frame after, s.received = before ++ frame :: after →
      (Talk.listen c (.loop false) before).1.goesOn := by
    intro before frame after heq
    have := h.live (s.greeting ++ before) frame after (by rw [heq, List.append_assoc])
    rwa [happ] at this
  obtain ⟨talk, hlisten, hat⟩ := h.talk
  rw [happ, listen_loop hlive] at hlisten
  obtain ⟨htalk, hcs⟩ := Prod.mk.inj hlisten
  exact ⟨hlive, talk, Prod.ext htalk (listen_loop hlive), hcs.symm, hat⟩

theorem Follows.callbacks (h : Follows c s) : s.callbacks = [] ∧ s.received = [] ∨
    ∃ endpoint version cs, s.callbacks = .connected endpoint version :: cs ∧
      (∀ endpoint version, .connected endpoint version ∉ cs) ∧
      cs ++ s.pending = s.received.flatMap (callbacksOf c.platform) := by
  rcases h.met with ⟨endpoint, version, hmet⟩ | ⟨hnil, talk, hlisten, -⟩
  · obtain ⟨-, _, -, hcs, -⟩ := h.inLoop hmet
    right
    rcases List.append_eq_cons_iff.mp hcs with ⟨-, hpend⟩ | ⟨cs, hcallbacks, hcs⟩
    · exact absurd (hpend ▸ List.mem_cons_self) (connected_not_mem_pending (s := s))
    · refine ⟨endpoint, version, cs, hcallbacks, fun endpoint version hmem => ?_, hcs.symm⟩
      have hmem' : .connected endpoint version ∈ s.received.flatMap (callbacksOf c.platform) := by
        rw [hcs]
        exact List.mem_append_left _ hmem
      obtain ⟨frame, -, hframe⟩ := List.mem_flatMap.mp hmem'
      exact connected_not_mem_callbacksOf hframe
  · left
    obtain ⟨t, ht, -⟩ := h.talk
    rw [hnil, List.append_nil, hlisten] at ht
    exact ⟨(List.append_eq_nil_iff.mp (Prod.mk.inj ht).2.symm).1, hnil⟩

theorem isPing_of_ofFrame {P : Platform} {frame : Frame} {m : Message}
    (h : Message.ofFrame P frame = .ok m) : frame.isPing = false := by
  cases frame <;> simp_all [Frame.isPing, Message.ofFrame]

/-- After a fatal frame nothing is read, and the service has returned its error. -/
theorem Follows.fatal (h : Follows c s) {before after : List Frame} {frame : Frame} {m : Message}
    {e : ProtocolError} (heq : s.received = before ++ frame :: after)
    (hm : Message.ofFrame c.platform frame = .ok m)
    (hv : ∀ acknowledged, Talk.listen c (.loop false) before =
        (.loop acknowledged, before.flatMap (callbacksOf c.platform)) →
      Binding.verdict acknowledged m = .error e) :
    after = [] ∧ s.phase = .finished (.error (.protocolError e)) ∧ ∃ endpoint version,
      s.callbacks = .connected endpoint version :: before.flatMap (callbacksOf c.platform) := by
  rcases h.met with ⟨endpoint, version, hmet⟩ | ⟨hnil, -⟩
  · obtain ⟨hlive, talk, hlisten, hcs, hat⟩ := h.inLoop hmet
    obtain ⟨acknowledged, hloop⟩ := eq_loop (Talk.listen_ne_greeting (by simp) before)
      (hlive before frame after heq)
    have hbefore : Talk.listen c (.loop false) before =
        (.loop acknowledged, before.flatMap (callbacksOf c.platform)) := by
      refine Prod.ext hloop (listen_loop fun b f a hb => hlive b f (a ++ frame :: after) ?_)
      rw [heq, hb, List.append_assoc, List.cons_append]
    have hread := Talk.loop_rejected (isPing_of_ofFrame hm) hm (hv acknowledged hbefore)
    have hnext := feed_snoc hbefore hread
    obtain rfl : after = [] := by
      cases after with
      | nil => rfl
      | cons f fs =>
        have hgo := hlive (before ++ [frame]) f fs (by rw [heq, List.append_assoc]; rfl)
        rw [Talk.listen, hnext] at hgo
        exact hgo.elim
    rw [heq] at hlisten hcs
    rw [Talk.listen, hnext] at hlisten
    obtain ⟨rfl, hsame⟩ := Prod.mk.inj hlisten
    have hphase := Phase.at_over hat
    refine ⟨rfl, hphase, endpoint, version, ?_⟩
    rwa [pending_of_inbox (h.inbox (by rw [hphase]; rfl)), List.append_nil, ← hsame,
      List.append_nil] at hcs
  · rw [hnil] at heq
    exact absurd heq (by simp)

end

/-- The client is told of the acknowledgement and then of what every frame says, in order. -/
theorem serve_reports (c : Setup) (as : List Action) (s : Service) (h : Serves c as s) :
    Reported c s := by
  have hf := h.follows
  refine ⟨hf.callbacks, ?_, ?_, ?_⟩
  · rintro (hp | hp)
    · exact hf.inbox (by rw [hp]; rfl)
    · exact hf.inbox (by rw [hp]; rfl)
  · intro before frame after topic v heq hm
    exact hf.fatal heq hm fun _ _ => rfl
  · intro frame e hp hping hm
    have hstep : s.step c (.next (some (.ok frame))) = some ({ s with
        received := s.received ++ [frame] }.call c (.error (.deserializationError e)) .select) := by
      simp [step, next, hp, receive, hping, hm]
    exact ⟨_, _, hstep, rfl, rfl⟩

def silentClient : Setup := Sample.setup fun _ => []

/-- An acknowledgement, an error of the peer, an event and noise, then data that is no event. -/
def newsLabels : List Action :=
  Sample.handshake ++ [.callbackDone, .next (some (.ok (Sample.frame 1))), .drain, .callbackDone, .drain,
    .next (some (.ok (Sample.frame 2))), .drain, .callbackDone, .drain,
    .next (some (.ok (Sample.frame 4))), .callbackDone, .next (some (.ok (Sample.frame 3)))]

theorem news_reported : ∃ s, Serves silentClient newsLabels s ∧ Reported silentClient s ∧
    s.callbacks.length = 4 := by
  obtain ⟨s, hs, hlen⟩ : ∃ s, Serves silentClient newsLabels s ∧ (s.callbacks.length == 4) = true :=
    exists_serves rfl
  exact ⟨s, hs, serve_reports _ _ s hs, by simpa using hlen⟩

end Service

end ZWS
