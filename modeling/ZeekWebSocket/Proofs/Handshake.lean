import ZeekWebSocket.Proofs.Incoming

/-! How many acknowledgements a connection takes. The handshake of the service does not tell the
binding, which therefore takes one more for its own. -/

namespace ZWS

open Base

def Frame.isAck (P : Platform) (frame : Frame) : Bool :=
  match Message.ofFrame P frame with
  | .ok m => m.isAck
  | _ => false

theorem Frame.exists_of_isAck {P : Platform} {frame : Frame} (h : frame.isAck P = true) :
    ∃ endpoint version, Message.ofFrame P frame = .ok (.ack endpoint version) := by
  unfold isAck at h
  split at h
  · rename_i m hm
    cases m with
    | ack endpoint version => exact ⟨endpoint, version, hm⟩
    | _ => simp [Message.isAck] at h
  · simp at h

namespace Service

def InLoop (s : Service) : Prop := s.phase.listens = true ∧ s.phase.early = false

/-- The first acknowledgement after that of the handshake ends `serve`. -/
def NextAckRejected (c : Setup) (s : Service) : Prop :=
  ∀ before frame after, s.received = before ++ frame :: after → frame.isAck c.platform = true →
    (∀ f ∈ before, f.isAck c.platform = false) →
    after = [] ∧ s.phase = .finished (.error (.protocolError .alreadySubscribed))

section
variable {c : Setup} {s : Service}

theorem read_loop_next (acknowledged : Bool) (frame : Frame) :
    (Talk.read c (.loop acknowledged) frame).1 = .loop (acknowledged || frame.isAck c.platform) ∨
      ¬ (Talk.read c (.loop acknowledged) frame).1.goesOn := by
  unfold Frame.isAck
  cases hf : frame.isPing with
  | true =>
    cases hm : Message.ofFrame c.platform frame with
    | ok m => simp [isPing_of_ofFrame hm] at hf
    | _ => simp [Talk.loop_ping hf]
  | false =>
    cases hm : Message.ofFrame c.platform frame with
    | ok m =>
      cases hv : Binding.verdict acknowledged m with
      | ok => exact .inl (by rw [Talk.loop_message hf hm hv])
      | error e => exact .inr (by rw [Talk.loop_rejected hf hm hv]; exact id)
    | err e => exact .inl (by simp [Talk.loop_undecodable hf hm])
    | panic => exact .inr (by rw [Talk.loop_panicked hf hm]; exact id)

/-- The flag of the main loop says whether an acknowledgement was read. -/
theorem listen_acknowledged {frames : List Frame} {acknowledged flag : Bool}
    (h : (Talk.listen c (.loop acknowledged) frames).1 = .loop flag) :
    flag = (acknowledged || frames.any (Frame.isAck c.platform)) := by
  induction frames generalizing acknowledged with
  | nil => simpa using (Talk.loop.inj h).symm
  | cons frame frames ih =>
    have h' : (Talk.listen c (Talk.read c (.loop acknowledged) frame).1 frames).1 = .loop flag := h
    rcases read_loop_next (c := c) acknowledged frame with hread | hread
    · rw [hread] at h'
      rw [ih h', List.any_cons, Bool.or_assoc]
    · rw [Talk.listen_over hread] at h'
      rw [show (Talk.read c (.loop acknowledged) frame).1 = .loop flag from h'] at hread
      exact absurd trivial hread

/-- In the main loop the binding is subscribed once it has got an acknowledgement of its own. -/
theorem Follows.subscribed_iff (h : Follows c s) (hin : s.InLoop) :
    s.binding.state = .subscribed ↔ ∃ frame ∈ s.received, frame.isAck c.platform = true := by
  have hloop : ∀ talk, s.phase.At s.binding.acknowledged talk → talk = .loop s.binding.acknowledged := by
    intro talk hat
    rw [Phase.at_of_listens hin.1] at hat
    simpa [hin.2] using hat
  have hflag : s.binding.acknowledged = s.received.any (Frame.isAck c.platform) := by
    rcases h.met with ⟨endpoint, version, hmet⟩ | ⟨hnil, talk, hlisten, hne⟩
    · obtain ⟨-, talk, hlisten, -, hat⟩ := h.inLoop hmet
      obtain rfl := hloop talk hat
      simpa using listen_acknowledged (congrArg Prod.fst hlisten)
    · obtain ⟨talk', hlisten', hat⟩ := h.talk
      rw [hnil, List.append_nil, hlisten] at hlisten'
      exact absurd ((congrArg Prod.fst hlisten').trans (hloop _ hat)) (hne _)
  rw [← List.any_eq_true, ← hflag, Binding.acknowledged, decide_eq_true_eq]

/-- The binding takes the first acknowledgement of the main loop. -/
theorem Follows.first_ack (h : Follows c s) {before : List Frame} {frame : Frame}
    (heq : s.received = before ++ [frame]) (hack : frame.isAck c.platform = true)
    (hfirst : ∀ f ∈ before, f.isAck c.platform = false) :
    s.phase ≠ .finished (.error (.protocolError .alreadySubscribed)) := by
  rcases h.met with ⟨endpoint, version, hmet⟩ | ⟨hnil, -⟩
  · obtain ⟨hlive, talk, hlisten, -, hat⟩ := h.inLoop hmet
    obtain ⟨acknowledged, hloop⟩ := eq_loop (Talk.listen_ne_greeting (by simp) before)
      (hlive before frame [] heq)
    obtain rfl : acknowledged = false := by
      have hflag := listen_acknowledged hloop
      rwa [Bool.false_or, List.any_eq_false.mpr fun f hf => by simp [hfirst f hf]] at hflag
    obtain ⟨endpoint, version, hm⟩ := Frame.exists_of_isAck hack
    have hverdict : Binding.verdict false (.ack endpoint version) = .ok () := rfl
    have hread := Talk.loop_message (isPing_of_ofFrame hm) hm hverdict
    rw [heq, Talk.listen, feed_snoc (Prod.ext hloop rfl) hread] at hlisten
    obtain ⟨rfl, -⟩ := Prod.mk.inj hlisten
    intro hp
    rw [hp] at hat
    rcases hat with hat | ⟨-, text, hat⟩
    · simp at hat
    · simp at hat
  · rw [hnil] at heq
    exact absurd heq (by simp)

/-- The second one is fatal. -/
theorem Follows.second_ack (h : Follows c s) {before after : List Frame} {frame : Frame}
    (heq : s.received = before ++ frame :: after) (hack : frame.isAck c.platform = true)
    (hfirst : ∃ f ∈ before, f.isAck c.platform = true) :
    after = [] ∧ s.phase = .finished (.error (.protocolError .alreadySubscribed)) := by
  obtain ⟨endpoint, version, hm⟩ := Frame.exists_of_isAck hack
  obtain ⟨hnil, hp, -⟩ := h.fatal heq hm fun acknowledged hbefore => by
    have hflag := listen_acknowledged (congrArg Prod.fst hbefore)
    rw [hflag, Bool.false_or, List.any_eq_true.mpr hfirst]
    rfl
  exact ⟨hnil, hp⟩

theorem Follows.nextAckRejected_iff (h : Follows c s) :
    NextAckRejected c s ↔ ∀ frame ∈ s.received, frame.isAck c.platform = false := by
  refine ⟨?_, ?_⟩
  · intro hnext
    by_contra hsome
    obtain ⟨frame, hfind⟩ : ∃ frame, s.received.find? (Frame.isAck c.platform) = some frame := by
      rw [← Option.isSome_iff_exists, List.find?_isSome]
      simpa using hsome
    obtain ⟨hack, before, after, heq, hfirst⟩ := List.find?_eq_some_iff_append.mp hfind
    have hfirst' : ∀ f ∈ before, f.isAck c.platform = false := fun f hf => by simpa using hfirst f hf
    obtain ⟨rfl, hp⟩ := hnext before frame after heq hack hfirst'
    exact h.first_ack heq hack hfirst' hp
  · intro hnone before frame after heq hack
    have hmem : frame ∈ s.received := by simp [heq]
    simp [hnone frame hmem] at hack

end

/-- The acknowledgement after that of the handshake is never rejected, only the one after it is,
and in the main loop the binding is subscribed exactly if it got an acknowledgement there. -/
theorem next_ack_rejected_iff (c : Setup) (as : List Action) (s : Service) (h : Serves c as s) :
    (NextAckRejected c s ↔ ∀ frame ∈ s.received, frame.isAck c.platform = false) ∧
    (s.InLoop → (s.binding.state = .subscribed ↔
      ∃ frame ∈ s.received, frame.isAck c.platform = true)) ∧
    ∀ before frame after, s.received = before ++ frame :: after → frame.isAck c.platform = true →
      (∃ f ∈ before, f.isAck c.platform = true) →
      after = [] ∧ s.phase = .finished (.error (.protocolError .alreadySubscribed)) :=
  ⟨h.follows.nextAckRejected_iff, h.follows.subscribed_iff, fun _ _ _ => h.follows.second_ack⟩

/-- Two acknowledgements in a row. -/
def twoAckLabels : List Action :=
  Sample.handshake ++ [.callbackDone, .next (some (.ok (Sample.frame 0)))]

theorem twoAck_survives : (¬ ∀ c as s, Serves c as s → NextAckRejected c s) ∧
    ¬ ∀ c as s, Serves c as s → s.InLoop → s.binding.state = .subscribed := by
  refine ⟨?_, ?_⟩
  · intro h
    obtain ⟨s, hs, hp⟩ : ∃ s, Serves silentClient twoAckLabels s ∧
        (s.received = [Sample.frame 0] && s.phase.listens : Bool) = true := exists_serves rfl
    simp only [Bool.and_eq_true, decide_eq_true_eq] at hp
    have hfinished := (h _ _ s hs [] (Sample.frame 0) [] hp.1 rfl (by simp)).2
    simp [hfinished, Phase.listens] at hp
  · intro h
    obtain ⟨s, hs, hp⟩ : ∃ s, Serves silentClient (Sample.handshake ++ [.callbackDone]) s ∧
        (s.phase.listens && !s.phase.early && s.binding.state = .subscribing : Bool) = true :=
      exists_serves rfl
    simp only [Bool.and_eq_true, Bool.not_eq_true', decide_eq_true_eq] at hp
    have hsub := h _ _ s hs hp.1
    simp [hp.2] at hsub

theorem twoAck_subscribed : ∃ s, Serves silentClient twoAckLabels s ∧
    (s.InLoop → (s.binding.state = .subscribed ↔
      ∃ frame ∈ s.received, frame.isAck silentClient.platform = true)) ∧
    s.received = [Sample.frame 0] := by
  obtain ⟨s, hs, hp⟩ : ∃ s, Serves silentClient twoAckLabels s ∧
      (s.received = [Sample.frame 0] : Bool) = true := exists_serves rfl
  exact ⟨s, hs, (next_ack_rejected_iff _ _ s hs).2.1, by simpa using hp⟩

end Service

end ZWS
