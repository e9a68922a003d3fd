import ZeekWebSocket.Proofs.Incoming

/-! What control frames do to a connection. Pings are passed over in both loops of `serve`;
a pong or a close frame is taken for a message that cannot be decoded. -/

namespace ZWS

open Base

def Action.reading : Action → Option (Option (Except String Frame))
  | .next r => some r
  | _ => none

/-- What the stream yields when the server sends `frames` and closes the connection. -/
def stream (frames : List Frame) : List (Option (Except String Frame)) :=
  frames.map (fun frame => some (.ok frame)) ++ [none]

/-- A frame of the server, and whether it was put between the others. -/
structure Sent where
  frame : Frame
  inserted : Bool

namespace Sent

def frames (sent : List Sent) : List Frame := sent.map Sent.frame

/-- The frames without the inserted ones. -/
def without (sent : List Sent) : List Frame := frames (sent.filter fun x => !x.inserted)

/-- What was inserted are pings, pongs and at the end a close frame. -/
def Controls (sent : List Sent) : Prop :=
  ∀ before x after, sent = before ++ x :: after → x.inserted = true →
    match x.frame with
    | .ping _ => True
    | .pong _ => True
    | .close _ => after = []
    | _ => False

end Sent

/-- What `serve` comes to when the server has nothing more to say. -/
def Talk.ending : Talk → Phase
  | .greeting => .finished (.ok ())
  | .loop _ => .finished (.ok ())
  | .over e => .finished (.error e)
  | .panicked => .panicked

/-- The callbacks of a whole conversation and its end. -/
def Talk.whole (c : Setup) (talk : Talk) (frames : List Frame) : List Callback × Phase :=
  ((listen c talk frames).2, (listen c talk frames).1.ending)

/-- An inserted frame is a ping, or it comes when the conversation is over already, or it says
during the handshake what the next frame that is no ping says anyway. -/
def Harmless (c : Setup) (talk : Talk) (sent : List Sent) : Prop :=
  ∀ before x after, sent = before ++ x :: after → x.inserted = true → x.frame.isPing = false →
    (Talk.listen c talk (Sent.frames before)).1.goesOn →
    (Talk.listen c talk (Sent.frames before)).1 = .greeting ∧
      (Sent.without after).find? (fun frame => !frame.isPing) = some x.frame

namespace Service

/-- `serve` ran against a server that sends `frames` and closes the connection, until what it read
from the stream made it return. -/
def Concludes (c : Setup) (frames : List Frame) (s : Service) : Prop :=
  ∃ as r, Serves c (as ++ [.next r]) s ∧ s.phase.listens = false ∧
    (as ++ [.next r]).filterMap Action.reading <+: stream frames

end Service

namespace Sent

variable {sent : List Sent} {x : Sent}

@[simp] theorem frames_nil : frames [] = [] := rfl

@[simp] theorem frames_cons : frames (x :: sent) = x.frame :: frames sent := rfl

@[simp] theorem without_nil : without [] = [] := rfl

theorem without_cons_kept (h : x.inserted = false) :
    without (x :: sent) = x.frame :: without sent := by
  simp [without, h]

theorem without_cons_inserted (h : x.inserted = true) : without (x :: sent) = without sent := by
  simp [without, h]

theorem Controls.tail (h : Controls (x :: sent)) : Controls sent := fun before y after heq =>
  h (x :: before) y after (by rw [heq]; rfl)

/-- No inserted frame but a ping holds a message. -/
theorem Controls.ofFrame (h : Controls (x :: sent)) (hx : x.inserted = true)
    (hping : x.frame.isPing = false) (P : Platform) :
    Message.ofFrame P x.frame = .err (.unexpectedMessageType x.frame) := by
  have hc := h [] x sent rfl hx
  cases hf : x.frame <;> simp_all [Message.ofFrame, Frame.isPing]

end Sent

namespace Talk

variable {c : Setup} {talk talk' : Talk} {frame : Frame} {cs : List Callback}

theorem whole_read (talk : Talk) (frame : Frame) (frames : List Frame) :
    whole c talk (frame :: frames) =
      ((read c talk frame).2 ++ (whole c (read c talk frame).1 frames).1,
        (whole c (read c talk frame).1 frames).2) := rfl

theorem whole_cons (h : read c talk frame = (talk', cs)) (frames : List Frame) :
    whole c talk (frame :: frames) = (cs ++ (whole c talk' frames).1, (whole c talk' frames).2) := by
  rw [whole_read, h]

theorem whole_over (h : ¬ talk.goesOn) (frames : List Frame) : whole c talk frames = ([], talk.ending) := by
  simp [whole, listen_over h]

theorem read_ping (hf : frame.isPing = true) : read c talk frame = (talk, []) := by
  cases talk with
  | greeting => exact greeting_ping hf
  | loop acknowledged => exact loop_ping hf
  | _ => rfl

theorem whole_ping (hf : frame.isPing = true) (frames : List Frame) :
    whole c talk (frame :: frames) = whole c talk frames := by
  rw [whole_cons (read_ping hf)]
  rfl

/-- A frame that holds no message ends the handshake, and is reported after it. -/
theorem read_unexpected (hf : frame.isPing = false)
    (hm : Message.ofFrame c.platform frame = .err (.unexpectedMessageType frame)) :
    read c .greeting frame =
      (.over (.protocolError (.deserializationError (.unexpectedMessageType frame))), []) ∧
    ∀ acknowledged, read c (.loop acknowledged) frame =
      (.loop acknowledged, [.error (.deserializationError (.unexpectedMessageType frame))]) :=
  ⟨greeting_undecodable hf hm, fun _ => loop_undecodable hf hm⟩

theorem frame_of_unexpected {P : Platform} {frame frame' : Frame}
    (h : Message.ofFrame P frame = .err (.unexpectedMessageType frame')) : frame = frame' := by
  have hbytes : ∀ bytes, Message.fromBytes P bytes ≠ .err (.unexpectedMessageType frame') := by
    intro bytes
    unfold Message.fromBytes
    split
    · simp
    · rename_i j _
      cases Message.decode P j <;> simp [Outcome.mapErr]
  cases frame with
  | text s => exact absurd h (hbytes _)
  | binary data => exact absurd h (hbytes _)
  | _ => simpa [Message.ofFrame] using h

/-- A handshake that ends with an unexpected frame is one whose first frame but pings is that. -/
theorem whole_greeting_unexpected (hf : frame.isPing = false)
    (hm : Message.ofFrame c.platform frame = .err (.unexpectedMessageType frame)) (frames : List Frame) :
    whole c .greeting frames = ([], .finished (.error (.protocolError
        (.deserializationError (.unexpectedMessageType frame))))) ↔
      frames.find? (fun frame => !frame.isPing) = some frame := by
  induction frames with
  | nil => simp [whole, listen, feed, ending]
  | cons g frames ih =>
    cases hg : g.isPing with
    | true => rw [whole_ping hg, ih, List.find?_cons_of_neg (by simp [hg])]
    | false =>
      rw [List.find?_cons_of_pos (by simp [hg]), Option.some.injEq]
      cases hmg : Message.ofFrame c.platform g with
      | ok m =>
        have hne : g ≠ frame := by
          rintro rfl
          simp [hm] at hmg
        cases ha : m.isAck with
        | true =>
          cases m with
          | ack endpoint version => simp [whole_cons (greeting_ack hg hmg), hne]
          | _ => simp [Message.isAck] at ha
        | false =>
          rw [whole_cons (greeting_refused hg hmg ha), whole_over id]
          simp [ending, hne]
      | err e =>
        rw [whole_cons (greeting_undecodable hg hmg), whole_over id]
        simp only [ending, List.append_nil, Prod.mk.injEq, true_and, Phase.finished.injEq, Except.error.injEq,
          Client.Error.protocolError.injEq, ProtocolError.deserializationError.injEq]
        refine ⟨?_, ?_⟩
        · rintro rfl
          exact frame_of_unexpected hmg
        · rintro rfl
          exact Outcome.err.inj (hmg.symm.trans hm)
      | panic =>
        have hne : g ≠ frame := by
          rintro rfl
          simp [hm] at hmg
        rw [whole_cons (greeting_panicked hg hmg), whole_over id]
        simp [ending, hne]

end Talk

section
variable {c : Setup} {talk : Talk} {sent : List Sent} {x : Sent}

/-- In the main loop what is inserted can only add callbacks. -/
theorem callbacks_without_le (hctl : Sent.Controls sent) (acknowledged : Bool) :
    (Talk.whole c (.loop acknowledged) (Sent.without sent)).1.length ≤
      (Talk.whole c (.loop acknowledged) (Sent.frames sent)).1.length := by
  induction sent generalizing acknowledged with
  | nil => exact le_rfl
  | cons x sent ih =>
    cases hx : x.inserted with
    | false =>
      have hne : (Talk.read c (.loop acknowledged) x.frame).1 ≠ .greeting :=
        Talk.listen_ne_greeting (show Talk.loop acknowledged ≠ .greeting by simp) [x.frame]
      rw [Sent.without_cons_kept hx, Sent.frames_cons, Talk.whole_read, Talk.whole_read]
      by_cases hgo : (Talk.read c (.loop acknowledged) x.frame).1.goesOn
      · obtain ⟨acknowledged', hnext⟩ := Service.eq_loop hne hgo
        have := ih hctl.tail acknowledged'
        simp only [hnext, List.length_append]
        omega
      · simp [Talk.whole_over hgo]
    | true =>
      rw [Sent.without_cons_inserted hx, Sent.frames_cons]
      have hle := ih hctl.tail acknowledged
      cases hping : x.frame.isPing with
      | true => rwa [Talk.whole_ping hping]
      | false =>
        have hread := (Talk.read_unexpected (c := c) hping (hctl.ofFrame hx hping c.platform)).2 acknowledged
        rw [Talk.whole_cons hread]
        simp only [List.length_append]
        omega

theorem harmless_over (h : ¬ talk.goesOn) : Harmless c talk sent := by
  intro before x after _ _ _ hgo
  rw [Talk.listen_over h] at hgo
  exact absurd hgo h

theorem harmless_cons : Harmless c talk (x :: sent) ↔
    (x.inserted = true → x.frame.isPing = false → talk.goesOn →
      talk = .greeting ∧ (Sent.without sent).find? (fun frame => !frame.isPing) = some x.frame) ∧
    Harmless c (Talk.read c talk x.frame).1 sent := by
  refine ⟨?_, ?_⟩
  · intro h
    exact ⟨h [] x sent rfl, fun before y after heq => h (x :: before) y after (by rw [heq]; rfl)⟩
  · intro h before y after heq
    obtain ⟨hx, hsent⟩ := h
    cases before with
    | nil =>
      obtain ⟨rfl, rfl⟩ := List.cons.inj heq
      exact hx
    | cons w before =>
      obtain ⟨rfl, htail⟩ := List.cons.inj heq
      exact hsent before y after htail

/-- A conversation stays as it is without what was inserted exactly if that is harmless. -/
theorem whole_eq_iff (hctl : Sent.Controls sent) (hgo : talk.goesOn) :
    Talk.whole c talk (Sent.without sent) = Talk.whole c talk (Sent.frames sent) ↔
      Harmless c talk sent := by
  induction sent generalizing talk with
  | nil => simp [Harmless]
  | cons x sent ih =>
    rw [harmless_cons]
    cases hx : x.inserted with
    | false =>
      rw [Sent.without_cons_kept hx, Sent.frames_cons, Talk.whole_read, Talk.whole_read]
      by_cases hnext : (Talk.read c talk x.frame).1.goesOn
      · rw [← ih hctl.tail hnext]
        simp [Prod.ext_iff]
      · simp [Talk.whole_over hnext, harmless_over hnext]
    | true =>
      rw [Sent.without_cons_inserted hx, Sent.frames_cons]
      cases hping : x.frame.isPing with
      | true =>
        rw [Talk.whole_ping hping, ih hctl.tail hgo, Talk.read_ping hping]
        simp
      | false =>
        have hm := hctl.ofFrame hx hping c.platform
        have hread := Talk.read_unexpected (c := c) hping hm
        cases talk with
        | greeting =>
          have hover : Harmless c (Talk.read c .greeting x.frame).1 sent := by
            rw [hread.1]
            exact harmless_over id
          have hend := Talk.whole_over (c := c) (show ¬ (Talk.over (.protocolError
            (.deserializationError (.unexpectedMessageType x.frame)))).goesOn from id) (Sent.frames sent)
          rw [Talk.whole_cons hread.1, hend]
          simp only [true_implies, hgo, hover, and_true, true_and]
          exact Talk.whole_greeting_unexpected hping hm (Sent.without sent)
        | loop acknowledged =>
          have hle := callbacks_without_le (c := c) hctl.tail acknowledged
          simp only [true_implies, hgo, reduceCtorEq, false_and, iff_false]
          rw [Talk.whole_cons (hread.2 acknowledged)]
          intro heq
          have := congrArg (fun w : List Callback × Phase => w.1.length) heq
          simp only [List.length_append, List.length_singleton] at this
          omega
        | _ => exact hgo.elim

end

namespace Service

variable {c : Setup} {s s₀ : Service} {as : List Action}

/-- While the service listens, what it got from the stream are the frames it read. -/
theorem Serves.reading (h : Serves c as s) : s.phase.listens = true →
    as.filterMap Action.reading = (s.greeting ++ s.received).map (fun frame => some (.ok frame)) ∧
      (s.phase.early = true → s.received = []) := by
  refine Serves.invariant_labels (c := c) (I := fun as s => s.phase.listens = true →
    as.filterMap Action.reading = (s.greeting ++ s.received).map (fun frame => some (.ok frame)) ∧
      (s.phase.early = true → s.received = [])) (fun _ => ⟨rfl, fun _ => rfl⟩) ?_ h
  intro as s a s' hs hm hl'
  cases hl : s.phase.listens with
  | false =>
    obtain ⟨-, n, rfl⟩ := hm.of_stopped hl
    simp [hl] at hl'
  | true =>
    obtain ⟨hread, hearly⟩ := hs hl
    rw [List.filterMap_append, hread]
    cases hm with
    | greetPing hp =>
      have hnil := hearly (by rw [hp]; rfl)
      exact ⟨by simp [Action.reading, hnil], hearly⟩
    | greetAck hp =>
      have hnil := hearly (by rw [hp]; rfl)
      exact ⟨by simp [Action.reading, call, hnil], by simp [call, Phase.early]⟩
    | receivePing hp => exact ⟨by simp [Action.reading], by simp [hp, Phase.early]⟩
    | receiveMessage => exact ⟨by simp [Action.reading], by simp [Phase.early]⟩
    | receiveUndecodable => exact ⟨by simp [Action.reading, call], by simp [call, Phase.early]⟩
    | connected hp => exact ⟨by simp [Action.reading], fun _ => hearly (by rw [hp]; rfl)⟩
    | @flushed site b hp hb =>
      refine ⟨by simp [Action.reading], fun he => hearly ?_⟩
      rw [hp]
      cases site with
      | handshake => rfl
      | select => simp [Phase.early] at he
    | @returned resume hp =>
      refine ⟨by simp [Action.reading], fun he => ?_⟩
      cases resume <;> simp [Resume.phase, Phase.early] at he
    | handed | accepted | cloned | dropped => exact ⟨by simp [Action.reading], hearly⟩
    | sent | took | tookNone | drained => exact ⟨by simp [Action.reading], by simp [Phase.early]⟩
    | drainEvent | drainError => exact ⟨by simp [Action.reading, call], by simp [call, Phase.early]⟩
    | _ => simp [finish, Phase.listens] at hl'

theorem stream_cons (frame : Frame) (frames : List Frame) :
    stream (frame :: frames) = some (.ok frame) :: stream frames := rfl

/-- The last thing read of a stream is its end, or one of the frames. -/
theorem reading_stream {reads frames : List Frame} {r : Option (Except String Frame)}
    (h : reads.map (fun frame => some (.ok frame)) ++ [r] <+: stream frames) :
    r = none ∧ frames = reads ∨
      ∃ frame after, r = some (.ok frame) ∧ frames = reads ++ frame :: after := by
  induction reads generalizing frames with
  | nil =>
    cases frames with
    | nil => exact .inl ⟨by simpa [stream] using h, rfl⟩
    | cons frame frames =>
      rw [stream_cons, List.map_nil, List.nil_append, List.cons_prefix_cons] at h
      exact .inr ⟨frame, frames, h.1, rfl⟩
  | cons f reads ih =>
    cases frames with
    | nil => simp [stream] at h
    | cons frame frames =>
      rw [stream_cons, List.map_cons, List.cons_append, List.cons_prefix_cons] at h
      obtain ⟨hf, hrest⟩ := h
      obtain rfl : f = frame := by simpa using hf
      rcases ih hrest with ⟨rfl, rfl⟩ | ⟨frame, after, rfl, rfl⟩
      · exact .inl ⟨rfl, rfl⟩
      · exact .inr ⟨frame, after, rfl, rfl⟩

/-- A frame of the handshake on which `serve` ends is one on which the conversation ends. -/
theorem greet_last {frame : Frame} (hp : s₀.phase = .waiting .handshake)
    (hl : (s₀.greet c frame).phase.listens = false) : ∃ talk, Talk.read c .greeting frame = (talk, []) ∧
      ¬ talk.goesOn ∧ (s₀.greet c frame).callbacks = s₀.callbacks ∧
      (s₀.greet c frame).phase = talk.ending := by
  unfold greet at hl ⊢
  cases hf : frame.isPing with
  | true => simp [hf, hp, Phase.listens] at hl
  | false =>
    cases hm : Message.ofFrame c.platform frame with
    | ok m =>
      cases m with
      | ack endpoint version => simp [hf, hm, call, Phase.listens] at hl
      | _ => exact ⟨_, Talk.greeting_refused hf hm rfl, id, rfl, rfl⟩
    | err e => exact ⟨_, Talk.greeting_undecodable hf hm, id, rfl, rfl⟩
    | panic => exact ⟨_, Talk.greeting_panicked hf hm, id, rfl, rfl⟩

/-- The same for a frame of the main loop. -/
theorem receive_last {frame : Frame} (hp : s₀.phase = .waiting .select)
    (hl : (s₀.receive c frame).phase.listens = false) :
    ∃ talk, Talk.read c (.loop s₀.binding.acknowledged) frame = (talk, []) ∧ ¬ talk.goesOn ∧
      (s₀.receive c frame).callbacks = s₀.callbacks ∧ (s₀.receive c frame).phase = talk.ending := by
  unfold receive at hl ⊢
  cases hf : frame.isPing with
  | true => simp [hf, hp, Phase.listens] at hl
  | false =>
    cases hm : Message.ofFrame c.platform frame with
    | ok m =>
      rcases hb : s₀.binding.handleIncoming m with ⟨e | _, b⟩
      · have hv := Binding.handleIncoming_verdict s₀.binding m
        rw [hb] at hv
        simp only [hb]
        exact ⟨_, Talk.loop_rejected hf hm hv.symm, id, rfl, rfl⟩
      · simp [hf, hm, hb, Phase.listens] at hl
    | err e => simp [hf, hm, call, Phase.listens] at hl
    | panic => exact ⟨_, Talk.loop_panicked hf hm, id, rfl, rfl⟩

/-- The conversation of a service that waits for a frame. -/
theorem Follows.waits (h : Follows c s) {site : Site} (hp : s.phase = .waiting site) :
    Talk.listen c .greeting (s.greeting ++ s.received) =
      (match site with
        | .handshake => .greeting
        | .select => .loop s.binding.acknowledged, s.callbacks) := by
  have hnil : s.pending = [] := pending_of_inbox (h.inbox (by rw [hp]; rfl))
  obtain ⟨talk, hlisten, hat⟩ := h.talk
  rw [hnil, List.append_nil] at hlisten
  rw [hlisten]
  cases site with
  | handshake =>
    obtain ⟨rfl, -⟩ : talk = .greeting ∧ _ := by simpa [Phase.At, Phase.early, hp] using hat
    rfl
  | select =>
    obtain rfl : talk = .loop s.binding.acknowledged := by simpa [Phase.At, Phase.early, hp] using hat
    rfl

theorem whole_last {frames after : List Frame} {frame : Frame} {talk talk' : Talk} {cs : List Callback}
    (h : Talk.listen c .greeting frames = (talk, cs)) (hread : Talk.read c talk frame = (talk', []))
    (hgo : ¬ talk'.goesOn) :
    Talk.whole c .greeting (frames ++ frame :: after) = (cs, talk'.ending) := by
  have hnext : Talk.listen c .greeting (frames ++ [frame]) = (talk', cs) := by
    simpa [Talk.listen] using feed_snoc h hread
  rw [List.append_cons, Talk.whole, Talk.listen, feed_append]
  rw [Talk.listen] at hnext
  have hover := Talk.listen_over (c := c) hgo after
  rw [Talk.listen] at hover
  simp [hnext, hover]

/-- What `serve` comes to is what the conversation comes to. -/
theorem Concludes.eq_whole {frames : List Frame} (h : Concludes c frames s) :
    (s.callbacks, s.phase) = Talk.whole c .greeting frames := by
  obtain ⟨as, r, hs, hl, hstream⟩ := h
  obtain ⟨s₀, hs₀, hstep⟩ := Run.of_snoc hs
  obtain ⟨site, hp⟩ : ∃ site, s₀.phase = .waiting site := by
    simp only [step, next] at hstep
    split at hstep
    · exact ⟨_, by assumption⟩
    · simp at hstep
  have hlisten := (Serves.follows hs₀).waits hp
  obtain ⟨hreads, -⟩ := Serves.reading hs₀ (by rw [hp]; rfl)
  rw [List.filterMap_append, hreads] at hstream
  rcases reading_stream hstream with ⟨rfl, rfl⟩ | ⟨frame, after, rfl, rfl⟩
  · obtain rfl : s₀.finish (.ok ()) = s := by simpa [step, next, hp] using hstep
    rw [Talk.whole, hlisten]
    cases site <;> rfl
  · cases site with
    | handshake =>
      obtain rfl : s₀.greet c frame = s := by simpa [step, next, hp] using hstep
      obtain ⟨talk, hread, hgo, hc, hphase⟩ := greet_last hp hl
      rw [whole_last hlisten hread hgo, hc, hphase]
    | select =>
      obtain rfl : s₀.receive c frame = s := by simpa [step, next, hp] using hstep
      obtain ⟨talk, hread, hgo, hc, hphase⟩ := receive_last hp hl
      rw [whole_last hlisten hread hgo, hc, hphase]

/-- With and without control frames between the others, the callbacks and the result of `serve`
are the same exactly if the control frames are harmless. -/
theorem control_frames_transparent_iff (c : Setup) (sent : List Sent) (hctl : Sent.Controls sent)
    (s s' : Service) (h : Concludes c (Sent.without sent) s) (h' : Concludes c (Sent.frames sent) s') :
    (s.callbacks = s'.callbacks ∧ s.phase = s'.phase) ↔ Harmless c .greeting sent := by
  have hgo : Talk.greeting.goesOn := trivial
  rw [← whole_eq_iff hctl hgo, ← h.eq_whole, ← h'.eq_whole, Prod.mk.injEq]

/-- Labels that end with the closed connection, after which nothing is read. -/
theorem exists_concludes {frames : List Frame} {p : Service → Bool}
    (as : List Action) (h : ((as ++ [Action.next none]).foldlM (step c) (new c)).any p = true)
    (hp : ∀ s, p s = true → s.phase.listens = false)
    (hread : (as ++ [Action.next none]).filterMap Action.reading = stream frames) :
    ∃ s, Concludes c frames s ∧ p s = true := by
  obtain ⟨s, hs, hps⟩ := exists_serves h
  exact ⟨s, ⟨as, none, hs, hp s hps, by rw [hread]⟩, hps⟩

theorem pair_eq_append_cons {α : Type} {a b x : α} {before after : List α}
    (h : [a, b] = before ++ x :: after) :
    before = [] ∧ x = a ∧ after = [b] ∨ before = [a] ∧ x = b ∧ after = [] := by
  rcases before with _ | ⟨_, _ | ⟨_, before⟩⟩ <;> simp at h
  · obtain ⟨rfl, rfl⟩ := h
    exact .inl ⟨rfl, rfl, rfl⟩
  · obtain ⟨rfl, rfl, rfl⟩ := h
    exact .inr ⟨rfl, rfl, rfl⟩

/-- An acknowledgement, and then a close frame before the connection is closed. -/
def closing : List Sent := [⟨Sample.frame 0, false⟩, ⟨.close none, true⟩]

theorem closing_controls : Sent.Controls closing := by
  intro before x after heq hx
  obtain ⟨-, rfl, -⟩ | ⟨-, rfl, rfl⟩ := pair_eq_append_cons heq
  · simp at hx
  · rfl

theorem closing_reported : ¬ ∀ c sent s s', Sent.Controls sent → Concludes c (Sent.without sent) s →
    Concludes c (Sent.frames sent) s' → s.callbacks = s'.callbacks ∧ s.phase = s'.phase := by
  intro h
  obtain ⟨s, hs, hp⟩ : ∃ s, Concludes silentClient (Sent.without closing) s ∧
      (!s.phase.listens && s.callbacks.length == 1 : Bool) = true :=
    exists_concludes (Sample.handshake ++ [.callbackDone]) rfl (fun s hs => by simp_all) rfl
  obtain ⟨s', hs', hp'⟩ : ∃ s, Concludes silentClient (Sent.frames closing) s ∧
      (!s.phase.listens && s.callbacks.length == 2 : Bool) = true :=
    exists_concludes (Sample.handshake ++ [.callbackDone, .next (some (.ok (.close none))), .callbackDone])
      rfl (fun s hs => by simp_all) rfl
  have heq := (h silentClient closing s s' closing_controls hs hs').1
  simp only [Bool.and_eq_true, beq_iff_eq] at hp hp'
  have hlen := hp'.2
  rw [← heq, hp.2] at hlen
  simp at hlen

/-- A ping in the handshake. -/
def pinged : List Sent := [⟨.ping .empty, true⟩, ⟨Sample.frame 0, false⟩]

theorem pinged_transparent : ∃ s s', Concludes silentClient (Sent.without pinged) s ∧
    Concludes silentClient (Sent.frames pinged) s' ∧ s.callbacks = s'.callbacks ∧ s.phase = s'.phase := by
  obtain ⟨s, hs, -⟩ : ∃ s, Concludes silentClient (Sent.without pinged) s ∧ (!s.phase.listens) = true :=
    exists_concludes (Sample.handshake ++ [.callbackDone]) rfl (fun s hs => by simpa using hs) rfl
  obtain ⟨s', hs', -⟩ :
      ∃ s, Concludes silentClient (Sent.frames pinged) s ∧ (!s.phase.listens) = true :=
    exists_concludes [.connect (.ok ()), .send (.ok ()), .flushed, .next (some (.ok (.ping .empty))),
      .next (some (.ok (Sample.frame 0))), .callbackDone] rfl (fun s hs => by simpa using hs) rfl
  have hctl : Sent.Controls pinged := by
    intro before x after heq hx
    obtain ⟨-, rfl, -⟩ | ⟨-, rfl, -⟩ := pair_eq_append_cons heq
    · trivial
    · simp at hx
  refine ⟨s, s', hs, hs', (control_frames_transparent_iff _ pinged hctl s s' hs hs').mpr ?_⟩
  intro before x after heq hx hping _
  obtain ⟨-, rfl, -⟩ | ⟨-, rfl, -⟩ := pair_eq_append_cons heq
  · simp [Frame.isPing] at hping
  · simp at hx

end Service

end ZWS
