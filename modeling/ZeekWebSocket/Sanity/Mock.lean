import ZeekWebSocket.Proofs.NodePipeline
import ZeekWebSocket.Proofs.Outgoing
import ZeekWebSocket.Sanity.Talk
import ZeekWebSocket.Spec.Mock

/-! What the mock server makes of each frame that a service sends, and a client of its answers. -/

namespace ZWS

open Base

/-- The JSON text of `j` is read back. -/
def Platform.Legible (P : Platform) (j : Json) : Prop := P.parseJson (P.renderJson j).toUTF8 = some j

def Message.Legible (P : Platform) (m : Message) : Prop := ∀ j, m.encode P = .ok j → P.Legible j

/-- What comes back for an event. -/
def Event.echo (e : Event) : Event := .new e.name e.args

/-- Values of the types of the program: canonical, with numbers for reals, and with timestamps that
have a date at the local offset. -/
def Event.Sound (o : UtcOffset) (e : Event) : Prop :=
  ∀ v ∈ e.args ++ e.metadata, v.Canonical ∧ v.RealsFinite ∧ v.TimesFit o

/-- The timestamps are written at the local offset. -/
def Event.atOffset (o : UtcOffset) : Event → Event := Node.mapTimes (Node.atClock o)

theorem Event.atOffset_echo (o : UtcOffset) (e : Event) : e.echo.atOffset o = (e.atOffset o).echo := rfl

theorem Event.mem_echo {e : Event} {v : Value} (h : v ∈ e.echo.args ++ e.echo.metadata) :
    v ∈ e.args ++ e.metadata := by
  have hargs : v ∈ e.args := by simpa [echo, Event.new] using h
  exact List.mem_append_left _ hargs

theorem Event.Sound.echo {o : UtcOffset} {e : Event} (h : e.Sound o) : e.echo.Sound o :=
  fun v hv => h v (Event.mem_echo hv)

/-- The parts of an event are its frame and the parts of its arguments and metadata. -/
theorem Data.forall_parts_event {Q : Value → Prop} (hvector : ∀ xs, Q (.vector xs))
    (hcount : ∀ n, Q (.count n)) (hstring : ∀ s, Q (.string s)) {e : Event} :
    (∀ w ∈ (Data.event e).toValue.parts, Q w) ↔
      ∀ v ∈ e.args ++ e.metadata, ∀ w ∈ v.parts, Q w := by
  simp only [Data.toValue, Value.forall_parts_vector, List.forall_mem_append, List.forall_mem_cons,
    List.not_mem_nil, false_implies, implies_true, and_true, hvector, true_and]
  simp [Value.parts, hcount, hstring]

namespace Message

variable {P : Platform} {o : UtcOffset} {topic : String} {e : Event} {j : Json}

theorem exists_encode_event : (∃ j, (dataMessage topic (.event e)).encode P = .ok j) ↔
    ∀ v ∈ e.args ++ e.metadata, ∀ w ∈ v.parts, Value.Writable P w := by
  rw [← Data.forall_parts_event (Value.writable_vector P) (fun _ => trivial) (fun _ => trivial),
    ← Value.exists_encode_iff, Value.exists_encode_ok]
  exact Outcome.exists_bind_ok

theorem encode_echo (h : (dataMessage topic (.event e)).encode P = .ok j) :
    ∃ j, (dataMessage topic (.event e.echo)).encode P = .ok j := by
  rw [exists_encode_event]
  intro v hv
  exact exists_encode_event.mp ⟨j, h⟩ v (Event.mem_echo hv)

/-- An event that was read has the JSON it was read from. -/
theorem encode_atOffset :
    (dataMessage topic (.event (e.atOffset o))).encode P = (dataMessage topic (.event e)).encode P :=
  Node.encode_mapTimes (Value.unixNanos_getD o) topic e

theorem encode_obj (h : (dataMessage topic (.event e)).encode P = .ok j) : ∃ fs, j = .obj fs := by
  simp only [encode, Outcome.bind_eq_ok, Outcome.pure_def, Outcome.ok.injEq] at h
  obtain ⟨c, -, rfl⟩ := h
  exact ⟨_, rfl⟩

theorem decode_event (hP : P.RoundTrips) (ho : P.localOffset = some o) (he : e.Sound o)
    (hj : (dataMessage topic (.event e)).encode P = .ok j) :
    decode P j = .ok (dataMessage topic (.event (e.atOffset o))) := by
  have hready : ∀ w ∈ (Data.event e).toValue.parts, Value.Ready o w := by
    refine (Data.forall_parts_event (fun _ => trivial) (fun _ => trivial) fun _ => trivial).mpr ?_
    intro v hv
    obtain ⟨hc, hr, ht⟩ := he v hv
    exact Value.ready_of hc hr ht fun d hd => exists_encode_event.mp ⟨j, hj⟩ v hv _ hd
  obtain ⟨c, hc, hd⟩ := Value.content_round_trip hP ho (Data.event e).toValue hready
  simp only [encode, Outcome.bind_eq_ok, Outcome.pure_def, Outcome.ok.injEq] at hj
  obtain ⟨c', hc', rfl⟩ := hj
  obtain rfl := Outcome.ok.inj (hc.symm.trans hc')
  have hback : (Data.event e).toValue.atOffset o = (Data.event (e.atOffset o)).toValue :=
    (Node.toValue_mapTimes _ e).symm
  rw [decode_dataMessage, hd true, Outcome.ok_bind, hback, Data.ofValue_toValue]

theorem fromBytes_of_legible (h : P.Legible j) :
    fromBytes P (P.renderJson j).toUTF8 = (decode P j).mapErr fun e => .json (.data e) := by
  rw [fromBytes, h]

end Message

theorem Subscriptions.fromBytes_of_legible {P : Platform} {j : Json} (h : P.Legible j) :
    fromBytes P (P.renderJson j).toUTF8 = (decode j).mapErr fun e => .json (.data e) := by
  rw [fromBytes, h]

namespace Setup

def subscriptionsJson (c : Setup) : Json := .arr (c.subscriptions.topics.map .str)

/-- The client is subscribed to the topic of an `echo` event. -/
def Echoed (c : Setup) (e : String × Event) : Prop :=
  e.1 ∈ c.subscriptions.topics ∧ e.2.name = "echo"

instance (c : Setup) (e : String × Event) : Decidable (c.Echoed e) := inferInstanceAs (Decidable (_ ∧ _))

def echoes (c : Setup) (events : List (String × Event)) : List (String × Event) :=
  (events.filter (c.Echoed ·)).map fun e => (e.1, e.2.echo)

def ackFrame (c : Setup) : Frame :=
  match MockServer.ack.encode c.platform with
  | .ok j => .text (c.platform.renderJson j)
  | _ => .text ""

def echoFrame (c : Setup) (e : String × Event) : Frame :=
  match (Message.dataMessage e.1 (.event e.2)).encode c.platform with
  | .ok j => .text (c.platform.renderJson j)
  | _ => .text ""

/-- What the client and the server write of `events` is read back, and the events are sound. -/
structure Carries (c : Setup) (o : UtcOffset) (events : List (String × Event)) : Prop where
  subscriptions : c.platform.Legible c.subscriptionsJson
  ack : MockServer.ack.Legible c.platform
  event : ∀ e ∈ events, (Message.dataMessage e.1 (.event e.2)).Legible c.platform
  echo : ∀ e ∈ events, (Message.dataMessage e.1 (.event e.2.echo)).Legible c.platform
  sound : ∀ e ∈ events, e.2.Sound o

def Encodes (c : Setup) (e : String × Event) : Prop :=
  ∃ j, (Message.dataMessage e.1 (.event e.2)).encode c.platform = .ok j

end Setup

namespace MockServer

variable {c : Setup} {o : UtcOffset} {events : List (String × Event)} {e : String × Event}

theorem handle_subscriptions (h : c.platform.Legible c.subscriptionsJson) (subscriptions : List String) :
    handle c.platform subscriptions c.subscribeFrame =
      .ok (c.subscriptions.topics, some c.ackFrame) := by
  have hread : (c.subscriptions.topics.map Json.str).mapM Message.readString =
      .ok c.subscriptions.topics := by
    rw [Outcome.mapM_eq_ok, List.forall₂_map_left_iff]
    exact List.forall₂_same.mpr fun _ _ => rfl
  have hdecode : Subscriptions.decode c.subscriptionsJson = .ok c.subscriptions := by
    simp [Subscriptions.decode, Setup.subscriptionsJson, hread]
  have hframe : Subscriptions.ofFrame c.platform c.subscribeFrame = .ok c.subscriptions := by
    change Subscriptions.fromBytes c.platform (c.platform.renderJson c.subscriptionsJson).toUTF8 = _
    rw [Subscriptions.fromBytes_of_legible h, hdecode]
    rfl
  rw [handle, hframe]
  rfl

theorem eventFrame_of_encode {j : Json}
    (hj : (Message.dataMessage e.1 (.event e.2)).encode c.platform = .ok j) :
    c.eventFrame e = .binary (c.platform.renderJson j).toUTF8 := by
  rw [Setup.eventFrame, payload, hj]

theorem echoFrame_of_encode {j : Json} (hj : (Message.dataMessage e.1 (.event e.2)).encode c.platform = .ok j) :
    c.echoFrame e = .text (c.platform.renderJson j) := by
  rw [Setup.echoFrame, hj]

theorem handle_event (hP : c.platform.RoundTrips) (ho : c.platform.localOffset = some o)
    (hc : c.Carries o events) (he : e ∈ events) (hj : c.Encodes e) :
    handle c.platform c.subscriptions.topics (c.eventFrame e) =
      .ok (c.subscriptions.topics, if c.Echoed e then some (c.echoFrame (e.1, e.2.echo)) else none) := by
  obtain ⟨j, hj⟩ := hj
  obtain ⟨fs, rfl⟩ := Message.encode_obj hj
  have hlegible := hc.event e he _ hj
  have hsub : Subscriptions.ofFrame c.platform (c.eventFrame e) = .err (.json (.data .invalidType)) := by
    rw [eventFrame_of_encode hj]
    change Subscriptions.fromBytes c.platform _ = _
    rw [Subscriptions.fromBytes_of_legible hlegible]
    rfl
  have hmsg : Message.ofFrame c.platform (c.eventFrame e) =
      .ok (.dataMessage e.1 (.event (e.2.atOffset o))) := by
    rw [eventFrame_of_encode hj]
    change Message.fromBytes c.platform _ = _
    rw [Message.fromBytes_of_legible hlegible, Message.decode_event hP ho (hc.sound e he) hj]
    rfl
  obtain ⟨j', hj'⟩ := Message.encode_echo hj
  have hanswer : (Message.dataMessage e.1 (.event (.new (e.2.atOffset o).name (e.2.atOffset o).args))).toFrame
      c.platform = (.ok (c.echoFrame (e.1, e.2.echo)) : Outcome Empty Frame) := by
    rw [← Event.echo, ← Event.atOffset_echo, echoFrame_of_encode (e := (e.1, e.2.echo)) hj',
      Message.toFrame, Message.encode_atOffset, hj']
  have hname : (e.2.atOffset o).name = e.2.name := rfl
  rw [handle, hsub]
  simp only [hmsg, Message.newData_eq, hanswer]
  rw [hname]
  by_cases htopic : e.1 ∈ c.subscriptions.topics
  · by_cases hn : e.2.name = "echo" <;> simp [htopic, hn, Setup.Echoed]
  · simp [htopic, Setup.Echoed]

theorem handle_close (subscriptions : List String) :
    handle c.platform subscriptions Service.closeFrame = .ok (subscriptions, none) := rfl

/-- The answers to the events of a service that is subscribed. -/
theorem serve_events (hP : c.platform.RoundTrips) (ho : c.platform.localOffset = some o)
    (hc : c.Carries o events) {es : List (String × Event)}
    (hsub : ∀ e ∈ es, e ∈ events ∧ c.Encodes e) :
    feed (serve c.platform) (some c.subscriptions.topics) (es.map c.eventFrame) =
      (some c.subscriptions.topics, (c.echoes es).map c.echoFrame) := by
  induction es with
  | nil => rfl
  | cons e es ih =>
    obtain ⟨⟨hmem, hj⟩, hes⟩ := List.forall_mem_cons.mp hsub
    rw [List.map_cons, feed, serve, handle_event hP ho hc hmem hj]
    simp only [ih hes]
    by_cases hecho : c.Echoed e <;> simp [Setup.echoes, hecho]

/-- The answers to all that a service sends. -/
theorem serve_outbound (hP : c.platform.RoundTrips) (ho : c.platform.localOffset = some o)
    (hc : c.Carries o events) {es : List (String × Event)}
    (hsub : ∀ e ∈ es, e ∈ events ∧ c.Encodes e) :
    feed (serve c.platform) (some []) (c.outbound es) =
      (some c.subscriptions.topics, c.ackFrame :: (c.echoes es).map c.echoFrame) := by
  rw [Setup.outbound, feed, serve, handle_subscriptions hc.subscriptions]
  simp only [serve_events hP ho hc hsub]
  rfl

end MockServer

namespace Talk

variable {c : Setup} {o : UtcOffset} {events : List (String × Event)}

/-- The callback for an event that came back. -/
def echoCallback (o : UtcOffset) (e : String × Event) : Callback := .event e.1 (e.2.atOffset o)

theorem listen_echoes (hP : c.platform.RoundTrips) (ho : c.platform.localOffset = some o)
    (hc : c.Carries o events) {es : List (String × Event)}
    (hsub : ∀ e ∈ es, e ∈ events ∧ c.Encodes e) :
    listen c (.loop false) ((c.echoes es).map c.echoFrame) =
      (.loop false, (c.echoes es).map (echoCallback o)) := by
  induction es with
  | nil => rfl
  | cons e es ih =>
    obtain ⟨⟨hmem, j, hj⟩, hes⟩ := List.forall_mem_cons.mp hsub
    by_cases hecho : c.Echoed e
    · obtain ⟨j', hj'⟩ := Message.encode_echo hj
      have hframe := MockServer.echoFrame_of_encode (e := (e.1, e.2.echo)) hj'
      have hmsg : Message.ofFrame c.platform (c.echoFrame (e.1, e.2.echo)) =
          .ok (.dataMessage e.1 (.event (e.2.echo.atOffset o))) := by
        rw [hframe]
        change Message.fromBytes c.platform _ = _
        rw [Message.fromBytes_of_legible (hc.echo e hmem _ hj'),
          Message.decode_event hP ho (hc.sound e hmem).echo hj']
        rfl
      have hping : (c.echoFrame (e.1, e.2.echo)).isPing = false := by
        rw [hframe]
        rfl
      have hread : read c (.loop false) (c.echoFrame (e.1, e.2.echo)) =
          (.loop false, [echoCallback o (e.1, e.2.echo)]) :=
        loop_message hping hmsg rfl
      have hcons : c.echoes (e :: es) = (e.1, e.2.echo) :: c.echoes es := by
        simp [Setup.echoes, hecho]
      rw [listen] at ih ⊢
      rw [hcons, List.map_cons, feed, hread]
      simp only [ih hes]
      rfl
    · have hskip : c.echoes (e :: es) = c.echoes es := by simp [Setup.echoes, hecho]
      rw [hskip]
      exact ih hes

/-- What the client is told when it hears all that the server has to say. -/
theorem listen_answers (hP : c.platform.RoundTrips) (ho : c.platform.localOffset = some o)
    (hc : c.Carries o events) {es : List (String × Event)}
    (hsub : ∀ e ∈ es, e ∈ events ∧ c.Encodes e) :
    listen c .greeting (c.ackFrame :: (c.echoes es).map c.echoFrame) =
      (.loop false, .connected "mock-server" "0.0.1" :: (c.echoes es).map (echoCallback o)) := by
  have hj : MockServer.ack.encode c.platform = .ok _ := rfl
  have hack : Message.ofFrame c.platform c.ackFrame = .ok MockServer.ack := by
    change Message.fromBytes c.platform _ = _
    rw [Message.fromBytes_of_legible (hc.ack _ hj), MockServer.ack, Message.decode_ack]
    rfl
  have hread : read c .greeting c.ackFrame = (.loop false, [.connected "mock-server" "0.0.1"]) :=
    greeting_ack rfl hack
  have hloop := listen_echoes hP ho hc hsub
  rw [listen] at hloop ⊢
  rw [feed, hread]
  simp only [hloop]
  rfl

end Talk

end ZWS
