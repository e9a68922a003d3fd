import ZeekWebSocket.Proofs.Incoming
import ZeekWebSocket.Spec.CClient

/-! What a C program sees of its client: the events and errors of the frames that were read, in
their order, and a last error if the service ends with one. -/

namespace ZWS

open Base

namespace Client.Error

/-- `serve` never returns an error of Zeek, nor that an acknowledgement is missing. -/
def Fatal : Client.Error → Prop
  | .protocolError .ackExpected => False
  | .protocolError (.zeekError _ _) => False
  | _ => True

end Client.Error

namespace Talk

theorem fatal_of_verdict {acknowledged : Bool} {m : Message} {e : ProtocolError}
    (h : Binding.verdict acknowledged m = .error e) : (Client.Error.protocolError e).Fatal := by
  cases m with
  | ack endpoint version =>
    cases acknowledged with
    | true =>
      obtain rfl := Except.error.inj h
      trivial
    | false => simp [Binding.verdict] at h
  | error code context => simp [Binding.verdict] at h
  | dataMessage topic data =>
    cases data with
    | event event => simp [Binding.verdict] at h
    | other v =>
      obtain rfl := Except.error.inj h
      trivial

/-- A conversation that is over ended with a fatal error. -/
def Ended : Talk → Prop
  | .over e => e.Fatal
  | _ => True

theorem ended_read {c : Setup} {talk : Talk} (h : talk.Ended) (frame : Frame) :
    (read c talk frame).1.Ended := by
  cases talk with
  | greeting =>
    simp only [read]
    split
    · trivial
    · split <;> trivial
  | loop acknowledged =>
    simp only [read]
    split
    · trivial
    · split
      · split
        · trivial
        · next hv => exact fatal_of_verdict hv
      · trivial
      · trivial
  | _ => exact h

theorem ended_listen (c : Setup) (frames : List Frame) : (listen c .greeting frames).1.Ended :=
  feed_invariant (I := Ended) (fun _ frame h => ended_read h frame) frames trivial

end Talk

namespace C

variable {h : Host} {c : Setup} {s : Service}

/-- A text up to its first NUL. -/
def untilNul (s : String) : String := String.ofList (s.toList.takeWhile (· ≠ nul))

/-- The calls that a frame of the main loop leads to. -/
def callsOf (h : Host) (frame : Frame) : List Call :=
  if frame.isPing then []
  else
    match Message.ofFrame h.platform frame with
    | .ok (.dataMessage topic (.event event)) => [.receive (untilNul topic) event]
    | .ok (.error code context) =>
      [.error .zeek (untilNul ("Zeek error " ++ code ++ ": " ++ context))]
    | .err e =>
      [.error .unexpectedMessage (untilNul ("could not deserialize message: " ++ h.display e))]
    | _ => []

/-- The last call, for an error that `serve` can end with. -/
def lastCall (h : Host) : Phase → Option Call
  | .finished (.error (.transport text)) =>
    some (.error .transport (untilNul ("failure in websocket transport: " ++ text)))
  | .finished (.error (.protocolError .alreadySubscribed)) =>
    some (.error .transport
      (untilNul ("protocol-related error: " ++ "received an ACK while already subscribed")))
  | .finished (.error (.protocolError (.unexpectedEventPayload _))) =>
    some (.error .unexpectedMessage
      (untilNul ("protocol-related error: " ++ "unexpected event payload received")))
  | .finished (.error (.protocolError (.deserializationError e))) =>
    some (.error .unexpectedMessage
      (untilNul ("protocol-related error: " ++ ("could not deserialize message: " ++ h.display e))))
  | _ => none

/-- What the program has seen at any point of a run. -/
structure Told (h : Host) (s : Service) : Prop where
  /-- the calls are those of the frames, and then one for the error that `serve` returned -/
  order : ∃ told, told <+: s.received.flatMap (callsOf h) ∧
    h.calls s = told ++ (lastCall h s.phase).toList
  /-- nothing is outstanding when the service waits or has returned -/
  complete : s.phase = .waiting .select ∨ (∃ r, s.phase = .finished r) →
    h.calls s = s.received.flatMap (callsOf h) ++ (lastCall h s.phase).toList
  /-- after a transport error there is no further call, and `serve` has returned -/
  transport : ∀ before context after, h.calls s = before ++ .error .transport context :: after →
    after = [] ∧ ∃ e, s.phase = .finished (.error e)
  /-- no error ends the service without that call -/
  fatal : ∀ e, s.phase = .finished (.error e) → (lastCall h s.phase).isSome

theorem headD_splitOn (x : Char) (xs d : List Char) :
    (xs.splitOn x).headD d = xs.takeWhile (· ≠ x) := by
  induction xs generalizing d with
  | nil => rfl
  | cons y ys ih =>
    rw [List.splitOn, List.splitOnP_cons_eq_if_modifyHead, List.takeWhile_cons]
    by_cases hy : y = x
    · simp [hy]
    · have hys := ih []
      rw [List.splitOn] at hys
      obtain ⟨z, zs, hz⟩ := List.exists_cons_of_ne_nil (List.splitOnP_ne_nil (· == x) ys)
      rw [hz] at hys ⊢
      simpa [hy] using hys

theorem safeString_eq (s : String) : safeString s = untilNul s :=
  congrArg String.ofList (headD_splitOn nul s.toList s.toList)

/-- What a frame is reported as, it is told as. -/
theorem filterMap_inner (frame : Frame) :
    (callbacksOf h.platform frame).filterMap h.inner = callsOf h frame := by
  unfold callbacksOf callsOf
  cases frame.isPing with
  | true => rfl
  | false =>
    simp only [Bool.false_eq_true, if_false]
    cases Message.ofFrame h.platform frame with
    | ok m =>
      cases m with
      | ack endpoint version => rfl
      | error code context => exact congrArg (fun text => [Call.error .zeek text]) (safeString_eq _)
      | dataMessage topic data =>
        cases data with
        | event event => exact congrArg (fun topic => [Call.receive topic event]) (safeString_eq _)
        | other v => rfl
    | err e => exact congrArg (fun text => [Call.error .unexpectedMessage text]) (safeString_eq _)
    | panic => rfl

theorem filterMap_flatMap (frames : List Frame) :
    (frames.flatMap (callbacksOf h.platform)).filterMap h.inner = frames.flatMap (callsOf h) := by
  induction frames with
  | nil => rfl
  | cons frame frames ih =>
    rw [List.flatMap_cons, List.filterMap_append, filterMap_inner, ih, List.flatMap_cons]

/-- The callbacks so far are those of the frames, up to what is pending. -/
theorem told_of_follows (hf : Service.Follows c s) (hp : c.platform = h.platform) :
    s.callbacks.filterMap h.inner ++ s.pending.filterMap h.inner = s.received.flatMap (callsOf h) ∨
      s.callbacks = [] ∧ s.received = [] := by
  rcases hf.callbacks with hnil | ⟨endpoint, version, cs, hcs, -, hrest⟩
  · exact .inr hnil
  · left
    rw [hp] at hrest
    have hmap := congrArg (List.filterMap h.inner) hrest
    rw [List.filterMap_append, filterMap_flatMap] at hmap
    rw [hcs, List.filterMap_cons]
    exact hmap

theorem ne_transport_of_callsOf {frame : Frame} {call : Call} (hm : call ∈ callsOf h frame)
    (context : String) : call ≠ .error .transport context := by
  unfold callsOf at hm
  split at hm
  · simp at hm
  · split at hm
    · simp [List.mem_singleton.mp hm]
    · simp [List.mem_singleton.mp hm]
    · simp [List.mem_singleton.mp hm]
    · simp at hm

theorem fatal_of_follows (hf : Service.Follows c s) {e : Client.Error}
    (hphase : s.phase = .finished (.error e)) : e.Fatal := by
  obtain ⟨talk, hlisten, hat⟩ := hf.talk
  have hended := Talk.ended_listen c (s.greeting ++ s.received)
  rw [hlisten] at hended
  rw [hphase] at hat
  rcases hat with rfl | ⟨-, text, rfl⟩
  · exact hended
  · trivial

/-- A fatal error is told with the code and the text of the source. -/
theorem final_of_fatal {e : Client.Error} (he : e.Fatal) :
    h.final (.finished (.error e)) = lastCall h (.finished (.error e)) ∧
      (lastCall h (.finished (.error e))).isSome := by
  have htold : ∀ code text, some (Call.error code (safeString text)) =
      some (.error code (untilNul text)) := fun code text => by rw [safeString_eq]
  cases e with
  | transport text => exact ⟨htold _ _, rfl⟩
  | protocolError e =>
    cases e with
    | ackExpected => exact he.elim
    | zeekError code context => exact he.elim
    | _ => exact ⟨htold _ _, rfl⟩

theorem final_eq (hf : Service.Follows c s) : h.final s.phase = lastCall h s.phase := by
  cases hphase : s.phase with
  | finished r =>
    cases r with
    | ok => rfl
    | error e => exact (final_of_fatal (fatal_of_follows hf hphase)).1
  | _ => rfl

theorem finished_of_lastCall {phase : Phase} {call : Call} (hlast : lastCall h phase = some call) :
    ∃ e, phase = .finished (.error e) := by
  unfold lastCall at hlast
  split at hlast
  · exact ⟨_, rfl⟩
  · exact ⟨_, rfl⟩
  · exact ⟨_, rfl⟩
  · exact ⟨_, rfl⟩
  · exact absurd hlast (by simp)

theorem told (hf : Service.Follows c s) (hp : c.platform = h.platform) : Told h s := by
  have horder : ∃ told, told <+: s.received.flatMap (callsOf h) ∧
      h.calls s = told ++ (lastCall h s.phase).toList := by
    refine ⟨s.callbacks.filterMap h.inner, ?_, by rw [Host.calls, final_eq hf]⟩
    rcases told_of_follows hf hp with hall | ⟨hc, hr⟩
    · exact ⟨_, hall⟩
    · simp [hc]
  refine ⟨horder, fun hidle => ?_, fun before context after heq => ?_, fun e hphase => ?_⟩
  · have hinbox : s.binding.inbox.messages = [] := by
      refine hf.inbox ?_
      rcases hidle with hw | ⟨r, hr⟩
      · rw [hw]; rfl
      · rw [hr]; rfl
    rcases told_of_follows hf hp with hall | ⟨hc, hr⟩
    · rw [Service.pending_of_inbox hinbox, List.filterMap_nil, List.append_nil] at hall
      rw [Host.calls, hall, final_eq hf]
    · simp [Host.calls, hc, hr, final_eq hf]
  · obtain ⟨told, htold, hcalls⟩ := horder
    have hnone : ∀ call ∈ told, call ≠ .error .transport context := by
      intro call hcall
      obtain ⟨frame, -, hframe⟩ := List.mem_flatMap.mp (htold.subset hcall)
      exact ne_transport_of_callsOf hframe context
    rw [hcalls] at heq
    cases hlast : lastCall h s.phase with
    | none =>
      rw [hlast, Option.toList_none, List.append_nil] at heq
      exact absurd rfl (hnone _ (by simp [heq]))
    | some call =>
      rw [hlast, Option.toList_some] at heq
      rcases List.eq_nil_or_concat after with rfl | ⟨after, last, rfl⟩
      · exact ⟨rfl, finished_of_lastCall hlast⟩
      · rw [List.concat_eq_append, ← List.cons_append, ← List.append_assoc] at heq
        have htold' := (List.append_inj' heq rfl).1
        exact absurd rfl (hnone _ (by simp [htold']))
  · rw [hphase]
    exact (final_of_fatal (fatal_of_follows hf hphase)).2

theorem mapM_toStr {m : Memory} {topics : List (CStr m)} {strs : List Str}
    (h : topics.mapM CStr.toStr = some strs) : ∃ texts, topics.mapM CStr.text = some texts ∧
      strs.mapM m.text = some texts := by
  induction topics generalizing strs with
  | nil =>
    obtain rfl := Option.some.inj h
    exact ⟨[], rfl, rfl⟩
  | cons topic topics ih =>
    simp only [List.mapM_cons, CStr.toStr, Option.bind_eq_bind, Option.pure_def,
      Option.bind_eq_some_iff, Option.map_eq_some_iff, Option.some.injEq] at h
    obtain ⟨_, ⟨text, htext, rfl⟩, strs, hstrs, rfl⟩ := h
    obtain ⟨texts, htopics, hread⟩ := ih hstrs
    have hsame : m.text topic.fromPtr = some text := htext
    exact ⟨text :: texts, by simp [List.mapM_cons, htext, htopics], by simp [List.mapM_cons, hsame, hread]⟩

/-- Where `zws_client_new` spawns a task, it was given texts, and has called nothing. -/
theorem new_eq_some {m : Memory} {a : Args m} {t : Task} (hn : (h.new a).1 = some t) :
    (h.new a).2 = [] ∧ a.appName.toStr = some t.appName ∧
      a.topics.mapM CStr.toStr = some t.subscriptions ∧ t.config = a.config.getD .default := by
  unfold Host.new at hn ⊢
  split
  · simp_all
  · split
    · simp_all
    · split
      · simp_all
      · split
        · simp_all
        · split
          · simp_all
          · simp_all only [Option.some.injEq, true_and]
            subst hn
            exact ⟨rfl, rfl, rfl⟩

/-- The strings that the task has borrowed are as they were when it reads them. -/
structure Task.Kept (t : Task) (m started connected : Memory) : Prop where
  appName : started.bytes t.appName = m.bytes t.appName
  subscriptions : ∀ s ∈ t.subscriptions, connected.bytes s = m.bytes s

theorem mapM_text_congr {m m' : Memory} : ∀ {strs : List Str}, (∀ s ∈ strs, m'.bytes s = m.bytes s) →
    strs.mapM m'.text = strs.mapM m.text
  | [], _ => rfl
  | s :: strs, hs => by
    obtain ⟨hhead, hrest⟩ := List.forall_mem_cons.mp hs
    rw [List.mapM_cons, List.mapM_cons, mapM_text_congr hrest, Memory.text, Memory.text, hhead]

theorem exists_setup {m started connected : Memory} {a : Args m} {t : Task} (hn : (h.new a).1 = some t)
    (hkept : t.Kept m started connected) : ∃ c, h.setup t started connected = some c ∧
      a.topics.mapM CStr.text = some c.subscriptions.topics ∧ c.config = a.config.getD .default ∧
      c.platform = h.platform := by
  obtain ⟨-, happ, htopics, hconfig⟩ := new_eq_some hn
  obtain ⟨text, htext, hstr⟩ := Option.map_eq_some_iff.mp happ
  obtain ⟨texts, htexts, hread⟩ := mapM_toStr htopics
  have hstarted : started.text t.appName = some text := by
    rw [Memory.text, hkept.appName, ← hstr]
    exact htext
  have hconnected : t.subscriptions.mapM connected.text = some texts :=
    (mapM_text_congr hkept.subscriptions).trans hread
  refine ⟨⟨h.platform, t.config, ⟨texts⟩, fun _ => [], h.debug⟩, ?_, htexts, hconfig, rfl⟩
  simp [Host.setup, hstarted, hconnected]

/-- What `zws_client_publish` does: it panics where it is called from a callback with a text for a
topic, and else returns whether the event is enqueued. -/
structure Published (c : Setup) (s : Service) (inCallback : Bool) {m : Memory} (topic : CStr m)
    (event : Event) (r : Outcome Empty (Bool × Service)) : Prop where
  panics : r = .panic ↔ inCallback = true ∧ topic.text.isSome
  accepted : ∀ s', r = .ok (true, s') → inCallback = false ∧ s.phase.listens = true ∧
    (∃ as, Service.Serves c as s') ∧ ∃ t, topic.text = some t ∧ s'.accepted = s.accepted ++ [(t, event)]
  refused : ∀ s', r = .ok (false, s') → s' = s ∧
    (topic.text = none ∨ inCallback = false ∧ s.phase.listens = false)

theorem published {as : List Action} (hs : Service.Serves c as s) {inCallback : Bool} {m : Memory}
    {topic : CStr m} {event : Event} {r : Outcome Empty (Bool × Service)}
    (hp : publish c s inCallback topic event = some r) : Published c s inCallback topic event r := by
  unfold publish at hp
  split at hp
  · next htopic =>
    obtain rfl := Option.some.inj hp
    refine ⟨by simp [htopic], by simp, ?_⟩
    rintro s' ⟨⟩
    exact ⟨rfl, .inl htopic⟩
  · next t htopic =>
    split at hp
    · next hin =>
      obtain rfl := Option.some.inj hp
      exact ⟨by simp [hin, htopic], by simp, by simp⟩
    · next hout =>
      have hfalse : inCallback = false := by simpa using hout
      split at hp
      · next hl =>
        obtain ⟨s'', hstep, rfl⟩ := Option.map_eq_some_iff.mp hp
        refine ⟨by simp [hfalse], ?_, by simp⟩
        rintro s' ⟨⟩
        refine ⟨hfalse, hl, ⟨_, .snoc hs hstep⟩, t, htopic, ?_⟩
        simp only [Service.step, Service.accept] at hstep
        split at hstep
        · obtain ⟨-, rfl⟩ := Service.push_eq_some.mp hstep
          rfl
        · exact absurd hstep (by simp)
      · next hl =>
        obtain rfl := Option.some.inj hp
        refine ⟨by simp [hfalse], by simp, ?_⟩
        rintro s' ⟨⟩
        exact ⟨rfl, .inr ⟨hfalse, by simpa using hl⟩⟩

/-- A client that could be set up has made no call until its service runs. The service subscribes to
the topics that were given, if the program leaves them alone for as long as they are borrowed, and
then makes these calls. What is published is accepted unless its topic is no text or the service has
ended. -/
theorem client_told (h : Host) {m : Memory} (a : Args m) (t : Task) (hn : (h.new a).1 = some t)
    (started connected : Memory) (hkept : t.Kept m started connected) : (h.new a).2 = [] ∧
      ∃ c, h.setup t started connected = some c ∧
        a.topics.mapM CStr.text = some c.subscriptions.topics ∧ c.config = a.config.getD .default ∧
        ∀ as s, Service.Serves c as s → Told h s ∧ ∀ inCallback (m' : Memory) (topic : CStr m') event r,
          publish c s inCallback topic event = some r → Published c s inCallback topic event r := by
  obtain ⟨c, hsetup, htopics, hconfig, hp⟩ := exists_setup hn hkept
  refine ⟨(new_eq_some hn).1, c, hsetup, htopics, hconfig, fun as s hs => ?_⟩
  exact ⟨told hs.follows hp, fun _ _ _ _ _ hpublish => published hs hpublish⟩

def host : Host where
  platform := Sample.serverPlatform
  debug _ := ""
  display _ := ""
  parseUri _ := .ok ()
  buildRuntime := .ok ()

/-- `app`, `ws://a` and `/ping`. -/
def memory : Memory :=
  [97, 112, 112, 0, 119, 115, 58, 47, 47, 97, 0, 47, 112, 105, 110, 103, 0]

def arguments : Args memory :=
  ⟨⟨0, by decide⟩, ⟨4, by decide⟩, [⟨11, by decide⟩], some ⟨1, Nat.one_pos⟩⟩

theorem news_told : ∃ s, Service.Serves Service.silentClient Service.newsLabels s ∧ Told host s ∧
    (host.calls s).length = 4 := by
  have hn : (host.new arguments).1 = some ⟨⟨0, 3⟩, [⟨11, 5⟩], ⟨1, Nat.one_pos⟩⟩ := rfl
  have hc : host.setup ⟨⟨0, 3⟩, [⟨11, 5⟩], ⟨1, Nat.one_pos⟩⟩ memory memory =
      some Service.silentClient := rfl
  obtain ⟨-, c, hsetup, -, -, hruns⟩ :=
    client_told host arguments _ hn memory memory ⟨rfl, fun _ _ => rfl⟩
  obtain rfl := Option.some.inj (hc.symm.trans hsetup)
  obtain ⟨s, hs, hlen⟩ : ∃ s, Service.Serves Service.silentClient Service.newsLabels s ∧
      ((host.calls s).length == 4) = true := Service.exists_serves rfl
  exact ⟨s, hs, (hruns _ s hs).1, by simpa using hlen⟩

end C

end ZWS
