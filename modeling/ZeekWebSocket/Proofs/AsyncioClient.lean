import ZeekWebSocket.Proofs.Incoming
import ZeekWebSocket.Proofs.Outgoing
import ZeekWebSocket.Spec.Asyncio

/-! The services that run on one Python object, one after the other or side by side. The outboxes of
each are those that the object and the tasks of `publish` hold, and its accepted events those that
the tasks sent. The calls of `publish` that return give some of these, in the same order. -/

namespace ZWS.Python.Asyncio

open Base

section
variable {c : Setup} {s s' : Service} {a : ZWS.Action}

/-- Without callbacks that send, the steps of `serve` leave the outboxes and what they accepted. -/
structure Keeps (s s' : Service) : Prop where
  outboxes : s'.outboxes = s.outboxes
  accepted : s'.accepted = s.accepted

theorem keeps_of_own (hheld : s.phase.held = 0) (hm : Service.Moves c s a s') (ha : own a = true) :
    Keeps s s' := by
  cases hm with
  | accepted => simp [own] at ha
  | cloned => simp [own] at ha
  | dropped => simp [own] at ha
  | sent hp => simp [hp, Phase.held] at hheld
  | _ => exact ⟨rfl, rfl⟩

theorem held_of_moves (hc : ∀ callbacks, c.sends callbacks = []) (hheld : s.phase.held = 0)
    (hm : Service.Moves c s a s') : s'.phase.held = 0 := by
  cases hm with
  | greetAck => simp [Service.call, hc, Phase.held]
  | receiveUndecodable => simp [Service.call, hc, Phase.held]
  | drainEvent => simp [Service.call, hc, Phase.held]
  | drainError => simp [Service.call, hc, Phase.held]
  | sent hp => simp [hp, Phase.held] at hheld
  | @returned resume => cases resume <;> rfl
  | accepted => exact hheld
  | cloned => exact hheld
  | dropped => exact hheld
  | greetPing => exact hheld
  | receivePing => exact hheld
  | handed => exact hheld
  | _ => rfl

theorem held_eq_zero (hc : ∀ callbacks, c.sends callbacks = []) {as : List ZWS.Action}
    (h : Service.Serves c as s) : s.phase.held = 0 :=
  Service.Serves.invariant (I := fun s => s.phase.held = 0) rfl
    (fun _ _ _ hs hm => held_of_moves hc hs hm) h

/-- A service of the object: it runs `serve`, or did until a method raised. -/
inductive Stands (c : Setup) (t : Service) : Prop
  | serves {as} (h : Service.Serves c as t)
  | raised {as s resume todo n} (h : Service.Serves c as s) (hp : s.phase = .calling resume todo)
      (heq : t = { s with phase := .panicked, outboxes := n })

namespace Stands

theorem held (hc : ∀ callbacks, c.sends callbacks = []) (h : Stands c s) : s.phase.held = 0 := by
  cases h with
  | serves h => exact held_eq_zero hc h
  | raised _ _ heq => rw [heq]; rfl

/-- A step of `serve`. -/
theorem own (h : Stands c s) (hs : s.step c a = some s') : Stands c s' := by
  cases h with
  | serves h => exact .serves (.snoc h hs)
  | raised h hp heq =>
    obtain ⟨-, n, rfl⟩ := (Service.moves_of_step hs).of_stopped (by rw [heq]; rfl)
    exact .raised h hp (n := n) (by rw [heq])

theorem retain (h : Stands c s) (ho : 0 < s.outboxes) :
    Stands c { s with outboxes := s.outboxes + 1 } := by
  refine h.own (a := .clone) ?_
  simp [Service.step, Service.clone, ho]

theorem release (hc : ∀ callbacks, c.sends callbacks = []) (h : Stands c s) (ho : 0 < s.outboxes) :
    Stands c { s with outboxes := s.outboxes - 1 } := by
  refine h.own (a := .drop) ?_
  simp [Service.step, Service.drop, h.held hc, ho]

theorem push {e : String × Event} (h : Stands c s) (hl : s.phase.listens = true) (ho : 0 < s.outboxes)
    (hs : s.push c e = some s') : Stands c s' := by
  refine h.own (a := .accept e.1 e.2) ?_
  simpa [Service.step, Service.accept, hl, ho] using hs

theorem raise {resume : Resume} {todo : List (String × Event)} (h : Stands c s)
    (hp : s.phase = .calling resume todo) : Stands c { s with phase := .panicked } := by
  cases h with
  | serves h => exact .raised h hp rfl
  | raised _ _ heq => simp [heq] at hp

theorem delivered (h : Stands c s) : Service.Delivered c s := by
  cases h with
  | serves h =>
    rcases h.pipeline with ⟨taken, hp⟩ | ⟨-, hd⟩
    · exact hp.delivered
    · exact hd
  | raised h hp heq =>
    rcases h.pipeline with ⟨taken, hpipe⟩ | ⟨hl, -⟩
    · refine ⟨.inl ?_, fun hlen => ?_⟩
      · have hh : _ <+: c.outbound taken := ⟨_, hpipe.handed⟩
        have hacc : taken <+: _ := ⟨_, hpipe.conserve⟩
        rw [heq]
        exact hh.trans (Service.outbound_mono hacc)
      · rw [heq] at hlen ⊢
        exact hpipe.delivered.greeted hlen
    · simp [hp, Phase.listens] at hl

/-- Methods are called for the acknowledgement and then for what the frames say. -/
theorem callbacks (h : Stands c s) : s.callbacks = [] ∧ s.received = [] ∨
    ∃ endpoint version told, s.callbacks = .connected endpoint version :: told ∧
      told <+: s.received.flatMap (callbacksOf c.platform) := by
  have hserves : ∀ {as : List ZWS.Action} {t : Service}, Service.Serves c as t →
      t.callbacks = [] ∧ t.received = [] ∨
      ∃ endpoint version told, t.callbacks = .connected endpoint version :: told ∧
        told <+: t.received.flatMap (callbacksOf c.platform) := by
    intro as t ht
    rcases ht.follows.callbacks with hnil | ⟨endpoint, version, told, hcs, -, hall⟩
    · exact .inl hnil
    · exact .inr ⟨endpoint, version, told, hcs, _, hall⟩
  cases h with
  | serves h => exact hserves h
  | raised h hp heq =>
    have hbefore := hserves h
    rw [heq]
    exact hbefore

end Stands

end

section
variable {h : Host} {σ σ' : State}

/-- The event, if the task gave it to service `k`. -/
def Sent.acceptedBy (k : ℕ) (p : Sent) : Option (String × Event) :=
  match p.result with
  | .ok () => if p.task.target = k then some (p.task.topic, p.task.event) else none
  | .error _ => none

/-- The event, if `publish` returned for service `k`. -/
def Published.returnedFor (k : ℕ) (p : Published) : Option (String × Event) :=
  match p.target, p.result with
  | some j, .ok () => if j = k then some (p.topic, p.event) else none
  | _, _ => none

/-- The task that the coroutine waits for. -/
def Coroutine.task (co : Coroutine) : Option Task :=
  match co.stage with
  | .sending k => some ⟨k, co.topic, co.event⟩
  | _ => none

/-- What `publish` is about to return for service `k`. -/
def Coroutine.returning (k : ℕ) (co : Coroutine) : Option (String × Event) :=
  match co.stage with
  | .done j r => Published.returnedFor k ⟨some j, co.topic, co.event, r⟩
  | _ => none

namespace State

/-- The tasks that are not done. -/
def spawned (σ : State) : List Task := (σ.coroutine.bind Coroutine.task).toList ++ σ.tasks

/-- The outboxes of service `k` that the object and the tasks hold. -/
def held (σ : State) (k : ℕ) : ℕ :=
  (if σ.outbox = some k then 1 else 0) + σ.spawned.countP fun t => t.target = k

/-- The events that tasks gave to service `k`, in the order in which they did. -/
def sentTo (σ : State) (k : ℕ) : List (String × Event) := σ.sends.filterMap (Sent.acceptedBy k)

/-- Those of them for which `publish` returned, in the order in which it did. -/
def publishedTo (σ : State) (k : ℕ) : List (String × Event) :=
  σ.published.filterMap (Published.returnedFor k)

/-- Service `k` has ended. -/
def Ended (σ : State) (k : ℕ) : Prop := ∃ r, σ.services[k]? = some r ∧ r.service.phase.listens = false

end State

/-- What is known of service `k`. -/
structure Accounted (h : Host) (σ : State) (k : ℕ) (r : Running) : Prop where
  setup : ∃ subscriptions, r.setup = h.setup subscriptions
  stands : Stands r.setup r.service
  outboxes : r.service.outboxes = σ.held k
  accepted : r.service.accepted = σ.sentTo k

structure Consistent (h : Host) (σ : State) : Prop where
  outbox : ∀ k, σ.outbox = some k → k < σ.services.length
  tasks : ∀ t ∈ σ.spawned, t.target < σ.services.length
  sends : ∀ p ∈ σ.sends, p.task.target < σ.services.length
  services : ∀ k r, σ.services[k]? = some r → Accounted h σ k r

theorem sends_eq_nil {c : Setup} (hc : ∃ subscriptions, c = h.setup subscriptions)
    (callbacks : List Callback) : c.sends callbacks = [] := by
  obtain ⟨subscriptions, rfl⟩ := hc
  rfl

theorem acceptedBy_eq_none {p : Sent} {k : ℕ} (hk : p.task.target ≠ k) : p.acceptedBy k = none := by
  unfold Sent.acceptedBy
  split
  · exact if_neg hk
  · rfl

namespace State

theorem getElem?_update (k j : ℕ) (f : Service → Service) : (σ.update k f).services[j]? =
    (σ.services[j]?).map fun r => if k = j then { r with service := f r.service } else r := by
  simp [update, List.getElem?_modify]

@[simp] theorem length_update (k : ℕ) (f : Service → Service) :
    (σ.update k f).services.length = σ.services.length := by
  simp [update]

theorem update_update (k : ℕ) (f g : Service → Service) :
    (σ.update k f).update k g = σ.update k (g ∘ f) := by
  simp only [update, List.modify_modify_eq]
  rfl

theorem update_self {k : ℕ} {r : Running} (hr : σ.services[k]? = some r) :
    σ.update k (fun _ => r.service) = σ := by
  have hsame : σ.services.modify k (fun q => { q with service := r.service }) = σ.services := by
    refine List.ext_getElem? fun j => ?_
    rw [List.getElem?_modify]
    by_cases hj : k = j
    · subst hj
      simp [hr]
    · simp [hj]
  rw [update, hsame]

theorem take_eq : σ.take = σ ∧ σ.outbox = none ∨
    ∃ k, σ.outbox = some k ∧ σ.take = { σ.release k with outbox := none } := by
  unfold take
  cases ho : σ.outbox with
  | none => exact .inl ⟨rfl, rfl⟩
  | some k => exact .inr ⟨k, rfl, rfl⟩

@[simp] theorem take_outbox : σ.take.outbox = none := by
  rcases σ.take_eq with ⟨heq, ho⟩ | ⟨k, -, heq⟩
  · rw [heq, ho]
  · rw [heq]

/-- What else there is stays as it is. -/
theorem take_rest : σ.take.coroutine = σ.coroutine ∧ σ.take.tasks = σ.tasks ∧
    σ.take.sends = σ.sends ∧ σ.take.published = σ.published ∧
      σ.take.services.length = σ.services.length := by
  rcases σ.take_eq with ⟨heq, -⟩ | ⟨k, -, heq⟩
  · simp [heq]
  · rw [heq]
    refine ⟨rfl, rfl, rfl, rfl, ?_⟩
    simp [release]

/-- Disconnected, the object holds no outbox, and only tasks that nobody waits for do. -/
theorem held_of_disconnect (hd : σ.disconnect = .ok σ') (k : ℕ) :
    σ'.held k = σ.tasks.countP fun t => t.target = k := by
  unfold disconnect at hd
  split at hd
  · cases hd
  · next hb =>
    obtain rfl := Except.ok.inj hd
    obtain ⟨hco, htasks, -⟩ := σ.take_rest
    simp [held, spawned, hco, hb, htasks]

theorem disconnect_error {e : Exception} (hd : σ.disconnect = .error e) :
    e = alreadyBorrowed ∧ σ.coroutine.isSome := by
  unfold disconnect at hd
  split at hd
  · next hb => exact ⟨(Except.error.inj hd).symm, by simp [hb]⟩
  · cases hd

/-- A task gives its event to a service that is there for it, or to none. -/
theorem send_eq_some {task : Task} {result : Except Exception Unit} (hs : σ.send task = some (result, σ')) :
    ∃ r s, σ.services[task.target]? = some r ∧
      σ' = { (σ.update task.target fun _ => s).release task.target with
        sends := σ.sends ++ [⟨task, result⟩] } ∧
      (result = .ok () ∧ r.service.phase.listens = true ∧
          r.service.push r.setup (task.topic, task.event) = some s ∨
        result = .error notPublished ∧ r.service.phase.listens = false ∧ s = r.service) := by
  simp only [send, Option.bind_eq_bind, Option.bind_eq_some_iff] at hs
  obtain ⟨r, hr, hs⟩ := hs
  split at hs
  · next hl =>
    obtain ⟨s, hpush, hs⟩ := Option.bind_eq_some_iff.mp hs
    obtain ⟨rfl, rfl⟩ := Prod.mk.inj (Option.some.inj hs)
    exact ⟨r, s, hr, rfl, .inl ⟨rfl, hl, hpush⟩⟩
  · next hl =>
    obtain ⟨rfl, rfl⟩ := Prod.mk.inj (Option.some.inj hs)
    refine ⟨r, r.service, hr, ?_, .inr ⟨rfl, by simpa using hl, rfl⟩⟩
    rw [update_self hr]

theorem send_rest {task : Task} {result : Except Exception Unit} (hs : σ.send task = some (result, σ')) :
    σ'.coroutine = σ.coroutine ∧ σ'.tasks = σ.tasks ∧ σ'.published = σ.published ∧
      σ'.outbox = σ.outbox := by
  obtain ⟨-, -, -, rfl, -⟩ := send_eq_some hs
  exact ⟨rfl, rfl, rfl, rfl⟩

/-- The steps, by the branch they take. -/
inductive Moves (h : Host) (σ : State) : Action → State → Prop
  | failed {endpoint subscriptions loop} : Moves h σ (.run endpoint subscriptions loop) σ
  | ran {endpoint subscriptions} : Moves h σ (.run endpoint subscriptions (.ok ()))
      { σ.take with
        outbox := some σ.take.services.length
        services := σ.take.services ++ [⟨h.setup subscriptions, .new (h.setup subscriptions)⟩] }
  | borrowed {topic event} (hb : σ.coroutine.isSome) : Moves h σ (.publish topic event)
      { σ with published := σ.published ++ [⟨none, topic, event, .error alreadyBorrowed⟩] }
  | called {topic event} (hb : σ.coroutine = none) : Moves h σ (.publish topic event)
      { σ with coroutine := some ⟨topic, event, .called⟩ }
  | unconnected {topic event} (hb : σ.coroutine = some ⟨topic, event, .called⟩) (ho : σ.outbox = none) :
      Moves h σ .poll (σ.finish none topic event (.error notConnected))
  | spawned {k topic event} (hb : σ.coroutine = some ⟨topic, event, .called⟩) (ho : σ.outbox = some k) :
      Moves h σ .poll { σ.retain k with coroutine := some ⟨topic, event, .sending k⟩ }
  | sent {k topic event result τ} (hb : σ.coroutine = some ⟨topic, event, .sending k⟩)
      (hs : σ.send ⟨k, topic, event⟩ = some (result, τ)) :
      Moves h σ .sent { τ with coroutine := some ⟨topic, event, .done k result⟩ }
  | resumed {k topic event result} (hb : σ.coroutine = some ⟨topic, event, .done k result⟩) :
      Moves h σ .resume (σ.finish (some k) topic event result)
  | detached {k topic event} (hb : σ.coroutine = some ⟨topic, event, .sending k⟩) :
      Moves h σ .cancel { σ with coroutine := none, tasks := σ.tasks ++ [⟨k, topic, event⟩] }
  | cancelled {co} (hb : σ.coroutine = some co) (ht : co.task = none) :
      Moves h σ .cancel { σ with coroutine := none }
  | sentAlone {i task result τ} (ht : σ.tasks[i]? = some task) (hs : σ.send task = some (result, τ)) :
      Moves h σ (.sentAlone i) { τ with tasks := τ.tasks.eraseIdx i }
  | busy : Moves h σ .disconnect σ
  | disconnected : Moves h σ .disconnect σ.take
  | served {k a r s} (ha : own a = true) (hr : σ.services[k]? = some r)
      (hs : r.service.step r.setup a = some s) : Moves h σ (.serve k a) (σ.update k fun _ => s)
  | raised {k r resume todo} (hr : σ.services[k]? = some r) (hp : r.service.phase = .calling resume todo) :
      Moves h σ (.raise k) (σ.update k fun s => { s with phase := .panicked })

theorem moves_run {endpoint : String} {subscriptions : List String} {loop : Except Exception Unit}
    (hs : σ.step h (.run endpoint subscriptions loop) = some σ') :
    Moves h σ (.run endpoint subscriptions loop) σ' := by
  simp only [step, run] at hs
  split at hs
  · next hrun =>
    obtain rfl := Option.some.inj hs
    split at hrun
    · cases hrun
    · split at hrun
      · cases hrun
      · split at hrun
        · cases hrun
        · obtain rfl := Outcome.ok.inj hrun
          exact .ran
  · obtain rfl := Option.some.inj hs
    exact .failed
  · obtain rfl := Option.some.inj hs
    exact .failed

theorem moves_of_step {a : Action} (hs : σ.step h a = some σ') : Moves h σ a σ' := by
  cases a with
  | run endpoint subscriptions loop => exact moves_run hs
  | publish topic event =>
    obtain rfl := Option.some.inj hs
    unfold publish
    split
    · next hb => exact .borrowed (by rw [hb]; rfl)
    · next hb => exact .called hb
  | poll =>
    simp only [step, poll] at hs
    split at hs
    · next hb =>
      split at hs
      · next ho =>
        obtain rfl := Option.some.inj hs
        exact .unconnected hb ho
      · next ho =>
        obtain rfl := Option.some.inj hs
        exact .spawned hb ho
    · cases hs
  | sent =>
    simp only [step, State.sent] at hs
    split at hs
    · next hb =>
      obtain ⟨⟨result, τ⟩, hsend, hs⟩ := Option.bind_eq_some_iff.mp hs
      obtain rfl := Option.some.inj hs
      exact .sent hb hsend
    · cases hs
  | resume =>
    simp only [step, resume] at hs
    split at hs
    · next hb =>
      obtain rfl := Option.some.inj hs
      exact .resumed hb
    · cases hs
  | cancel =>
    simp only [step, cancel] at hs
    split at hs
    · next hb =>
      obtain rfl := Option.some.inj hs
      exact .detached hb
    · next co hne hb =>
      obtain rfl := Option.some.inj hs
      refine .cancelled hb ?_
      obtain ⟨topic, event, stage⟩ := co
      cases stage with
      | sending k => exact (hne topic event k rfl).elim
      | _ => rfl
    · cases hs
  | sentAlone i =>
    simp only [step, State.sentAlone, Option.bind_eq_bind, Option.bind_eq_some_iff] at hs
    obtain ⟨task, ht, ⟨result, τ⟩, hsend, hs⟩ := hs
    obtain rfl := Option.some.inj hs
    exact .sentAlone ht hsend
  | disconnect =>
    simp only [step, disconnect] at hs
    split at hs
    · next hd =>
      obtain rfl := Option.some.inj hs
      split at hd
      · cases hd
      · obtain rfl := Except.ok.inj hd
        exact .disconnected
    · obtain rfl := Option.some.inj hs
      exact .busy
  | serve k a =>
    simp only [step, serve, Option.bind_eq_bind, Option.bind_eq_some_iff, Option.guard_eq_some'] at hs
    obtain ⟨-, ha, r, hr, s, hstep, hs⟩ := hs
    obtain rfl := Option.some.inj hs
    exact .served ha hr hstep
  | raise k =>
    obtain ⟨r, hr, hs⟩ := Option.bind_eq_some_iff.mp hs
    split at hs
    · next hp =>
      obtain rfl := Option.some.inj hs
      exact .raised hr hp
    · cases hs

end State

theorem sentTo_append {l : List Sent} (hsends : σ'.sends = σ.sends ++ l) (k : ℕ) :
    σ'.sentTo k = σ.sentTo k ++ l.filterMap (Sent.acceptedBy k) := by
  rw [State.sentTo, hsends, List.filterMap_append, State.sentTo]

theorem publishedTo_append {l : List Published} (hpub : σ'.published = σ.published ++ l) (k : ℕ) :
    σ'.publishedTo k = σ.publishedTo k ++ l.filterMap (Published.returnedFor k) := by
  rw [State.publishedTo, hpub, List.filterMap_append, State.publishedTo]

/-! Every outbox is accounted for. -/

/-- The accounts look at the outbox, the tasks, the services and the sends only. -/
theorem Consistent.congr (hc : Consistent h σ) (ho : σ'.outbox = σ.outbox)
    (ht : σ'.spawned.Perm σ.spawned) (hs : σ'.services = σ.services) (hsends : σ'.sends = σ.sends) :
    Consistent h σ' := by
  have hheld : ∀ k, σ'.held k = σ.held k := fun k => by
    rw [State.held, State.held, ho, ht.countP_eq]
  refine ⟨?_, ?_, ?_, fun k r hr => ?_⟩
  · rw [ho, hs]
    exact hc.outbox
  · rw [hs]
    exact fun t hmem => hc.tasks t (ht.subset hmem)
  · rw [hs, hsends]
    exact hc.sends
  · rw [hs] at hr
    have ha := hc.services k r hr
    refine ⟨ha.setup, ha.stands, by rw [hheld, ha.outboxes], ?_⟩
    rw [ha.accepted, State.sentTo, State.sentTo, hsends]

/-- A service is updated, an outbox may be dropped, and tasks may be done. -/
theorem Consistent.update (hc : Consistent h σ) {k : ℕ} {f : Service → Service} {l : List Sent}
    (hs : σ'.services = (σ.update k f).services) (hsends : σ'.sends = σ.sends ++ l)
    (hout : ∀ j, σ'.outbox = some j → σ.outbox = some j)
    (htasks : ∀ t ∈ σ'.spawned, t.target < σ.services.length)
    (hnew : ∀ p ∈ l, p.task.target < σ.services.length)
    (hk : ∀ r, σ.services[k]? = some r → Accounted h σ' k { r with service := f r.service })
    (hj : ∀ j ≠ k, σ'.held j = σ.held j ∧ σ'.sentTo j = σ.sentTo j) : Consistent h σ' := by
  have hlen : σ'.services.length = σ.services.length := by rw [hs, State.length_update]
  refine ⟨fun j ho => ?_, fun t ht => ?_, fun p hp => ?_, fun j r hr => ?_⟩
  · rw [hlen]
    exact hc.outbox j (hout j ho)
  · rw [hlen]
    exact htasks t ht
  · rw [hlen]
    rw [hsends] at hp
    rcases List.mem_append.mp hp with hp | hp
    · exact hc.sends p hp
    · exact hnew p hp
  · rw [hs, State.getElem?_update] at hr
    obtain ⟨r, hbefore, rfl⟩ := Option.map_eq_some_iff.mp hr
    by_cases hkj : k = j
    · subst hkj
      rw [if_pos rfl]
      exact hk r hbefore
    · rw [if_neg hkj]
      have ha := hc.services j r hbefore
      obtain ⟨hheld, hto⟩ := hj j (Ne.symm hkj)
      exact ⟨ha.setup, ha.stands, by rw [hheld, ha.outboxes], by rw [hto, ha.accepted]⟩

/-- The outboxes are those held before, less the one of the task. -/
theorem held_of_perm {task : Task} (ht : σ.spawned.Perm (task :: σ'.spawned)) (ho : σ'.outbox = σ.outbox)
    (k : ℕ) : σ.held k = σ'.held k + if task.target = k then 1 else 0 := by
  have hcount := ht.countP_eq fun t => decide (t.target = k)
  rw [List.countP_cons] at hcount
  simp only [decide_eq_true_eq] at hcount
  simp only [State.held, ho]
  omega

theorem consistent_take (hc : Consistent h σ) : Consistent h σ.take := by
  rcases σ.take_eq with ⟨heq, -⟩ | ⟨k, ho, heq⟩
  · rwa [heq]
  · rw [heq]
    have hheld : ∀ j, σ.held j =
        State.held { σ.release k with outbox := none } j + if j = k then 1 else 0 := by
      intro j
      simp only [State.held, ho, Option.some.injEq, eq_comm (a := k)]
      simp [State.spawned, State.release, State.update, add_comm]
    refine hc.update (k := k) (f := fun s => { s with outboxes := s.outboxes - 1 }) (l := []) rfl
      (List.append_nil _).symm (by simp) hc.tasks (by simp) (fun r hr => ?_) fun j hj => ⟨?_, rfl⟩
    · have ha := hc.services k r hr
      have hpos := hheld k
      rw [if_pos rfl] at hpos
      refine ⟨ha.setup, ha.stands.release (sends_eq_nil ha.setup) (by rw [ha.outboxes]; omega),
        ?_, ha.accepted⟩
      simp only [ha.outboxes, hpos, Nat.add_sub_cancel]
    · rw [hheld j, if_neg hj]
      rfl

theorem consistent_ran (hc : Consistent h σ) (subscriptions : List String) (ho : σ.outbox = none) :
    Consistent h { σ with
      outbox := some σ.services.length
      services := σ.services ++ [⟨h.setup subscriptions, .new (h.setup subscriptions)⟩] } := by
  refine ⟨?_, fun t ht => ?_, fun p hp => ?_, fun j r hr => ?_⟩
  · simp
  · have := hc.tasks t ht
    simp only [List.length_append, List.length_singleton]
    omega
  · have := hc.sends p hp
    simp only [List.length_append, List.length_singleton]
    omega
  · rw [List.getElem?_append] at hr
    split at hr
    · next hlt =>
      have ha := hc.services j r hr
      refine ⟨ha.setup, ha.stands, ?_, ha.accepted⟩
      rw [ha.outboxes]
      simp [State.held, State.spawned, ho, (Nat.ne_of_lt hlt).symm]
    · next hge =>
      obtain ⟨hj, rfl⟩ : j = σ.services.length ∧
          r = ⟨h.setup subscriptions, .new (h.setup subscriptions)⟩ := by
        rw [List.getElem?_singleton] at hr
        split at hr
        · exact ⟨by omega, (Option.some.inj hr).symm⟩
        · cases hr
      subst hj
      refine ⟨⟨subscriptions, rfl⟩, .serves .nil, ?_, ?_⟩
      · have hnone : (σ.spawned.countP fun t => t.target = σ.services.length) = 0 :=
          List.countP_eq_zero.mpr fun t ht => by simpa using (hc.tasks t ht).ne
        change 1 = (if some σ.services.length = some σ.services.length then 1 else 0) +
          σ.spawned.countP fun t => t.target = σ.services.length
        rw [hnone, if_pos rfl]
      · exact (List.filterMap_eq_nil_iff.mpr fun p hp => acceptedBy_eq_none (hc.sends p hp).ne).symm

theorem listens_of_own {r : Running} {a : ZWS.Action} {s : Service} (hs : r.service.step r.setup a = some s)
    (hl : r.service.phase.listens = false) : s.phase.listens = false := by
  obtain ⟨-, n, rfl⟩ := (Service.moves_of_step hs).of_stopped hl
  exact hl

/-- A coroutine spawns its task. -/
theorem consistent_spawned (hc : Consistent h σ) {k : ℕ} {topic : String} {event : Event}
    (hb : σ.coroutine = some ⟨topic, event, .called⟩) (ho : σ.outbox = some k) :
    Consistent h { σ.retain k with coroutine := some ⟨topic, event, .sending k⟩ } := by
  have hspawned : State.spawned { σ.retain k with coroutine := some ⟨topic, event, .sending k⟩ } =
      ⟨k, topic, event⟩ :: σ.spawned := by
    simp [State.spawned, hb, Coroutine.task, State.retain, State.update]
  have hheld : ∀ j, State.held { σ.retain k with coroutine := some ⟨topic, event, .sending k⟩ } j =
      σ.held j + if k = j then 1 else 0 := fun j =>
    held_of_perm (σ := { σ.retain k with coroutine := some ⟨topic, event, .sending k⟩ })
      (List.Perm.of_eq hspawned) rfl j
  refine hc.update (k := k) (f := fun s => { s with outboxes := s.outboxes + 1 }) (l := []) rfl
    (List.append_nil _).symm (fun _ => id) ?_ (by simp) (fun r hr => ?_) fun j hj => ⟨?_, rfl⟩
  · rw [hspawned]
    exact List.forall_mem_cons.mpr ⟨hc.outbox k ho, hc.tasks⟩
  · have ha := hc.services k r hr
    refine ⟨ha.setup, ha.stands.retain ?_, ?_, ha.accepted⟩
    · rw [ha.outboxes, State.held, if_pos ho]
      omega
    · rw [hheld, if_pos rfl, ← ha.outboxes]
  · rw [hheld, if_neg (Ne.symm hj), add_zero]

/-- A task is done: its service took the event or has ended, and its outbox is dropped. -/
theorem consistent_send (hc : Consistent h σ) {task : Task} {result : Except Exception Unit} {τ : State}
    (hs : σ.send task = some (result, τ)) (hservices : σ'.services = τ.services)
    (hsends : σ'.sends = τ.sends) (ho : σ'.outbox = τ.outbox)
    (hperm : σ.spawned.Perm (task :: σ'.spawned)) : Consistent h σ' := by
  have hheld := held_of_perm hperm (ho.trans (State.send_rest hs).2.2.2)
  obtain ⟨r, s, hr, rfl, hresult⟩ := State.send_eq_some hs
  have hmem : ∀ t ∈ task :: σ'.spawned, t.target < σ.services.length := fun t ht =>
    hc.tasks t (hperm.symm.subset ht)
  obtain ⟨htask, hrest⟩ := List.forall_mem_cons.mp hmem
  have hupdate : σ'.services =
      (σ.update task.target fun _ => { s with outboxes := s.outboxes - 1 }).services := by
    rw [hservices]
    change ((σ.update task.target fun _ => s).update task.target
      fun s => { s with outboxes := s.outboxes - 1 }).services = _
    rw [State.update_update]
    rfl
  refine hc.update hupdate hsends (fun j hj => ho ▸ hj) hrest ?_ (fun r' hr' => ?_) fun j hj => ⟨?_, ?_⟩
  · intro p hp
    obtain rfl := List.mem_singleton.mp hp
    exact htask
  · obtain rfl := Option.some.inj (hr.symm.trans hr')
    have ha := hc.services task.target r hr
    have hdrop := hheld task.target
    rw [if_pos rfl, ← ha.outboxes] at hdrop
    have hsame : s.outboxes = r.service.outboxes ∧ Stands r.setup s ∧ s.accepted = r.service.accepted ++
        ([⟨task, result⟩] : List Sent).filterMap (Sent.acceptedBy task.target) := by
      rcases hresult with ⟨rfl, hl, hpush⟩ | ⟨rfl, -, rfl⟩
      · obtain ⟨-, heq⟩ := Service.push_eq_some.mp hpush
        exact ⟨by rw [heq], ha.stands.push hl (by omega) hpush, by simp [heq, Sent.acceptedBy]⟩
      · exact ⟨rfl, ha.stands, by simp [Sent.acceptedBy]⟩
    obtain ⟨hout, hstands, hacc⟩ := hsame
    refine ⟨ha.setup, hstands.release (sends_eq_nil ha.setup) (by omega), ?_, ?_⟩
    · change s.outboxes - 1 = _
      omega
    · rw [sentTo_append hsends, ← ha.accepted]
      exact hacc
  · rw [hheld j, if_neg (Ne.symm hj), add_zero]
  · rw [sentTo_append hsends, List.filterMap_cons_none (acceptedBy_eq_none (Ne.symm hj)),
      List.filterMap_nil, List.append_nil]

/-- Every step keeps the accounts. -/
theorem consistent_moves {a : Action} (hc : Consistent h σ) (hm : State.Moves h σ a σ') :
    Consistent h σ' := by
  cases hm with
  | failed => exact hc
  | busy => exact hc
  | ran => exact consistent_ran (consistent_take hc) _ State.take_outbox
  | disconnected => exact consistent_take hc
  | borrowed => exact hc.congr rfl (.refl _) rfl rfl
  | called hb => exact hc.congr rfl (.of_eq (by simp [State.spawned, hb, Coroutine.task])) rfl rfl
  | unconnected hb =>
    exact hc.congr rfl (.of_eq (by simp [State.spawned, State.finish, hb, Coroutine.task])) rfl rfl
  | resumed hb =>
    exact hc.congr rfl (.of_eq (by simp [State.spawned, State.finish, hb, Coroutine.task])) rfl rfl
  | cancelled hb ht => exact hc.congr rfl (.of_eq (by simp [State.spawned, hb, ht])) rfl rfl
  | detached hb =>
    refine hc.congr rfl ?_ rfl rfl
    simp only [State.spawned, hb, Coroutine.task, Option.bind_none, Option.toList_none, List.nil_append,
      Option.bind_some, Option.toList_some]
    exact List.perm_append_comm
  | spawned hb ho => exact consistent_spawned hc hb ho
  | sent hb hs =>
    obtain ⟨-, htasks, -, -⟩ := State.send_rest hs
    refine consistent_send hc hs rfl rfl rfl (.of_eq ?_)
    simp [State.spawned, hb, Coroutine.task, htasks]
  | @sentAlone i task result τ ht hs =>
    obtain ⟨hco, htasks, -, -⟩ := State.send_rest hs
    refine consistent_send hc hs rfl rfl rfl ?_
    obtain ⟨hi, rfl⟩ := List.getElem?_eq_some_iff.mp ht
    simp only [State.spawned, hco, htasks]
    exact ((List.getElem_cons_eraseIdx_perm hi).symm.append_left _).trans List.perm_middle
  | @served k a r s ha hr hs =>
    have hacc := hc.services k r hr
    have hkeeps := keeps_of_own (hacc.stands.held (sends_eq_nil hacc.setup)) (Service.moves_of_step hs) ha
    refine hc.update (k := k) (f := fun _ => s) (l := []) rfl (List.append_nil _).symm (fun _ => id)
      hc.tasks (by simp) (fun r' hr' => ?_) fun j hj => ⟨rfl, rfl⟩
    obtain rfl := Option.some.inj (hr.symm.trans hr')
    exact ⟨hacc.setup, hacc.stands.own hs, hkeeps.outboxes.trans hacc.outboxes,
      hkeeps.accepted.trans hacc.accepted⟩
  | @raised k r resume todo hr hp =>
    refine hc.update (k := k) (f := fun s => { s with phase := .panicked }) (l := []) rfl
      (List.append_nil _).symm (fun _ => id) hc.tasks (by simp) (fun r' hr' => ?_) fun j hj => ⟨rfl, rfl⟩
    obtain rfl := Option.some.inj (hr.symm.trans hr')
    have hacc := hc.services k r hr
    exact ⟨hacc.setup, hacc.stands.raise hp, hacc.outboxes, hacc.accepted⟩

theorem consistent {as : List Action} (hr : State.Runs h as σ) : Consistent h σ := by
  refine Run.invariant (I := Consistent h) ?_ (fun σ a σ' hc hs =>
    consistent_moves hc (State.moves_of_step hs)) hr
  exact ⟨by simp [State.new], by simp [State.new, State.spawned], by simp [State.new], by simp [State.new]⟩

/-! What the calls of `publish` return. -/

theorem ended_update {k j : ℕ} {f : Service → Service} (he : σ.Ended k)
    (hs : σ'.services = (σ.update j f).services)
    (hf : ∀ r, σ.services[j]? = some r → r.service.phase.listens = false →
      (f r.service).phase.listens = false) : σ'.Ended k := by
  obtain ⟨r, hr, hl⟩ := he
  refine ⟨_, by rw [hs, State.getElem?_update, hr]; rfl, ?_⟩
  by_cases hj : j = k
  · subst hj
    simpa using hf r hr hl
  · simpa [hj] using hl

theorem ended_take {k : ℕ} (he : σ.Ended k) : σ.take.Ended k := by
  rcases σ.take_eq with ⟨heq, -⟩ | ⟨j, -, heq⟩
  · rwa [heq]
  · rw [heq]
    exact ended_update (f := fun s => { s with outboxes := s.outboxes - 1 }) he rfl fun _ _ hl => hl

theorem ended_send {k : ℕ} {task : Task} {result : Except Exception Unit} {τ : State}
    (hs : σ.send task = some (result, τ)) (hservices : σ'.services = τ.services) (he : σ.Ended k) :
    σ'.Ended k := by
  obtain ⟨r, s, hr, rfl, hresult⟩ := State.send_eq_some hs
  have hgiven : (σ.update task.target fun _ => s).Ended k := by
    refine ended_update he rfl fun r' hr' hl' => ?_
    obtain rfl := Option.some.inj (hr.symm.trans hr')
    rcases hresult with ⟨-, hl, -⟩ | ⟨-, hl, rfl⟩
    · simp [hl] at hl'
    · exact hl
  exact ended_update (f := fun s => { s with outboxes := s.outboxes - 1 }) hgiven hservices fun _ _ hl => hl

/-- A service that has ended does not come back. -/
theorem ended_moves {k : ℕ} {a : Action} (he : σ.Ended k) (hm : State.Moves h σ a σ') : σ'.Ended k := by
  cases hm with
  | ran =>
    obtain ⟨r, hr, hl⟩ := ended_take he
    refine ⟨r, ?_, hl⟩
    rw [List.getElem?_append_left (List.getElem?_eq_some_iff.mp hr).1]
    exact hr
  | disconnected => exact ended_take he
  | spawned =>
    exact ended_update (f := fun s => { s with outboxes := s.outboxes + 1 }) he rfl fun _ _ hl => hl
  | sent _ hs => exact ended_send hs rfl he
  | sentAlone _ hs => exact ended_send hs rfl he
  | @served j a r s _ hr hs =>
    refine ended_update he rfl fun r' hr' hl => ?_
    obtain rfl := Option.some.inj (hr.symm.trans hr')
    exact listens_of_own hs hl
  | raised => exact ended_update he rfl fun _ _ _ => rfl
  | _ => exact he

/-- A `publish` that raises. -/
inductive Refused (σ : State) (p : Published) : Exception → Prop
  /-- another call has not ended -/
  | borrowed (ht : p.target = none) (hb : σ.coroutine.isSome) : Refused σ p alreadyBorrowed
  /-- the object has no outbox -/
  | disconnected (ht : p.target = none) (ho : σ.outbox = none) : Refused σ p notConnected
  /-- the service has ended -/
  | ended {k} (ht : p.target = some k) (he : σ.Ended k) : Refused σ p notPublished

structure Answered (σ : State) : Prop where
  /-- what `publish` returned for and is about to return for was sent in this order -/
  order : ∀ k, (σ.publishedTo k ++ (σ.coroutine.bind (Coroutine.returning k)).toList).Sublist (σ.sentTo k)
  failed : ∀ co k e, σ.coroutine = some co → co.stage = .done k (.error e) →
    e = notPublished ∧ σ.Ended k

/-- Nothing returns, and what was about to return may not. -/
theorem Answered.keep (hn : Answered σ) (hpub : σ'.published = σ.published)
    (hco : σ'.coroutine = σ.coroutine ∨ ∀ co, σ'.coroutine = some co → ∀ k r, co.stage ≠ .done k r)
    (hsends : ∀ k, (σ.sentTo k).Sublist (σ'.sentTo k)) (hended : ∀ k, σ.Ended k → σ'.Ended k) :
    Answered σ' := by
  refine ⟨fun k => ?_, fun co k e hb hstage => ?_⟩
  · rw [State.publishedTo, hpub]
    rcases hco with hco | hco
    · rw [hco]
      exact (hn.order k).trans (hsends k)
    · have hnone : σ'.coroutine.bind (Coroutine.returning k) = none := by
        cases hb : σ'.coroutine with
        | none => rfl
        | some co =>
          obtain ⟨topic, event, stage⟩ := co
          cases stage with
          | done j r => exact absurd rfl (hco _ hb j r)
          | _ => rfl
      rw [hnone, Option.toList_none, List.append_nil]
      exact ((List.sublist_append_left _ _).trans (hn.order k)).trans (hsends k)
  · rcases hco with hco | hco
    · obtain ⟨rfl, he⟩ := hn.failed co k e (hco ▸ hb) hstage
      exact ⟨rfl, hended k he⟩
    · exact absurd hstage (hco co hb k _)

/-- A call returns what the coroutine came to, or raises at once. -/
theorem Answered.finish (hn : Answered σ) {l : List Published}
    (hpub : σ'.published = σ.published ++ l)
    (hl : ∀ k, (l.filterMap (Published.returnedFor k)).Sublist
      (σ.coroutine.bind (Coroutine.returning k)).toList)
    (hco : σ'.coroutine = none) (hsends : σ'.sends = σ.sends) : Answered σ' := by
  refine ⟨fun k => ?_, fun co k e hb => by simp [hco] at hb⟩
  rw [publishedTo_append hpub, hco, Option.bind_none, Option.toList_none, List.append_nil, State.sentTo, hsends]
  exact ((hl k).append_left _).trans (hn.order k)

theorem sentTo_send {task : Task} {result : Except Exception Unit}
    (hs : σ.send task = some (result, σ')) (k : ℕ) :
    σ'.sentTo k = σ.sentTo k ++ ([⟨task, result⟩] : List Sent).filterMap (Sent.acceptedBy k) := by
  obtain ⟨-, -, -, rfl, -⟩ := State.send_eq_some hs
  exact sentTo_append rfl k

/-- What a coroutine is about to return is what its task came to. -/
theorem returning_done (j k : ℕ) (topic : String) (event : Event) (result : Except Exception Unit) :
    (Coroutine.returning j ⟨topic, event, .done k result⟩).toList =
      ([⟨⟨k, topic, event⟩, result⟩] : List Sent).filterMap (Sent.acceptedBy j) := by
  cases result with
  | ok _ => by_cases hj : k = j <;> simp [Coroutine.returning, Published.returnedFor, Sent.acceptedBy, hj]
  | error e => simp [Coroutine.returning, Published.returnedFor, Sent.acceptedBy]

theorem answered_moves {a : Action} (hn : Answered σ) (hm : State.Moves h σ a σ') : Answered σ' := by
  have hended : ∀ k, σ.Ended k → σ'.Ended k := fun k he => ended_moves he hm
  cases hm with
  | failed => exact hn
  | busy => exact hn
  | ran =>
    obtain ⟨hco, -, hsends, hpub, -⟩ := σ.take_rest
    exact hn.keep hpub (.inl hco) (fun k => by rw [State.sentTo, State.sentTo]; exact hsends ▸ .refl _) hended
  | disconnected =>
    obtain ⟨hco, -, hsends, hpub, -⟩ := σ.take_rest
    exact hn.keep hpub (.inl hco) (fun k => by rw [State.sentTo, State.sentTo, hsends]) hended
  | borrowed hb =>
    refine ⟨fun k => ?_, hn.failed⟩
    rw [publishedTo_append (σ := σ) rfl]
    exact (List.append_nil (σ.publishedTo k)).symm ▸ hn.order k
  | called hb => exact hn.keep rfl (.inr (by simp)) (fun _ => .refl _) hended
  | unconnected hb ho => exact hn.finish rfl (fun k => List.nil_sublist _) rfl rfl
  | spawned hb ho => exact hn.keep rfl (.inr (by simp)) (fun _ => .refl _) hended
  | @sent k topic event result τ hb hs =>
    obtain ⟨r, s, hr, hτ, hresult⟩ := State.send_eq_some hs
    have horder := hn.order
    refine ⟨fun j => ?_, fun co j e hco hstage => ?_⟩
    · have hbefore : (σ.publishedTo j).Sublist (σ.sentTo j) := by
        simpa [hb, Coroutine.returning] using horder j
      have hsame : State.publishedTo { τ with coroutine := some ⟨topic, event, .done k result⟩ } j =
          σ.publishedTo j := by rw [hτ]; rfl
      have hto : State.sentTo { τ with coroutine := some ⟨topic, event, .done k result⟩ } j = _ :=
        sentTo_send hs j
      rw [hsame, hto, Option.bind_some, returning_done]
      exact hbefore.append (.refl _)
    · obtain rfl := Option.some.inj hco
      obtain ⟨rfl, rfl⟩ := Stage.done.inj hstage
      rcases hresult with ⟨heq, -⟩ | ⟨heq, hl, -⟩
      · cases heq
      · exact ⟨Except.error.inj heq, hended _ ⟨r, hr, hl⟩⟩
  | @resumed k topic event result hb =>
    refine hn.finish rfl (fun j => ?_) rfl rfl
    rw [hb, Option.bind_some, Coroutine.returning, List.filterMap_cons, List.filterMap_nil]
    cases hr : Published.returnedFor j ⟨some k, topic, event, result⟩ <;> simp [hr]
  | detached => exact hn.keep rfl (.inr (by simp)) (fun _ => .refl _) hended
  | cancelled => exact hn.keep rfl (.inr (by simp)) (fun _ => .refl _) hended
  | @sentAlone i task result τ ht hs =>
    obtain ⟨hco, -, hpub, -⟩ := State.send_rest hs
    refine hn.keep hpub (.inl hco) (fun k => ?_) hended
    change (σ.sentTo k).Sublist (τ.sentTo k)
    rw [sentTo_send hs k]
    exact List.sublist_append_left _ _
  | served => exact hn.keep rfl (.inl rfl) (fun _ => .refl _) hended
  | raised => exact hn.keep rfl (.inl rfl) (fun _ => .refl _) hended

theorem answered {as : List Action} (hr : State.Runs h as σ) : Answered σ := by
  refine Run.invariant (I := Answered) ?_ (fun σ a σ' hn hs => answered_moves hn (State.moves_of_step hs)) hr
  exact ⟨by simp [State.new, State.publishedTo, State.sentTo], by simp [State.new]⟩

/-- What returns in a step returns for a reason. -/
theorem refused_moves {a : Action} (hn : Answered σ) (hm : State.Moves h σ a σ') :
    ∃ l, σ'.published = σ.published ++ l ∧
      ∀ p ∈ l, ∀ e, p.result = .error e → Refused σ p e := by
  have hsame : σ'.published = σ.published →
      ∃ l, σ'.published = σ.published ++ l ∧ ∀ p ∈ l, ∀ e, p.result = .error e → Refused σ p e :=
    fun heq => ⟨[], by rw [heq, List.append_nil], by simp⟩
  cases hm with
  | ran => exact hsame σ.take_rest.2.2.2.1
  | disconnected => exact hsame σ.take_rest.2.2.2.1
  | borrowed hb =>
    refine ⟨_, rfl, List.forall_mem_singleton.mpr fun e he => ?_⟩
    obtain rfl := Except.error.inj he
    exact .borrowed rfl hb
  | unconnected hb ho =>
    refine ⟨_, rfl, List.forall_mem_singleton.mpr fun e he => ?_⟩
    obtain rfl := Except.error.inj he
    exact .disconnected rfl ho
  | resumed hb =>
    refine ⟨_, rfl, List.forall_mem_singleton.mpr fun e he => ?_⟩
    obtain rfl : _ = Except.error e := he
    obtain ⟨rfl, hended⟩ := hn.failed _ _ e hb rfl
    exact .ended rfl hended
  | sent _ hs => exact hsame (State.send_rest hs).2.2.1
  | sentAlone _ hs => exact hsame (State.send_rest hs).2.2.1
  | _ => exact hsame rfl

/-- The calls on the object that a frame of the main loop leads to. -/
def methodsOf (h : Host) (frame : Frame) : List Method :=
  if frame.isPing then []
  else
    match Message.ofFrame h.platform frame with
    | .ok (.dataMessage topic (.event event)) => [.event topic event]
    | .ok (.error code context) => [.error (h.protocolText (.zeekError code context))]
    | .err e => [.error (h.protocolText (.deserializationError e))]
    | _ => []

theorem map_method (frame : Frame) : (callbacksOf h.platform frame).map h.method = methodsOf h frame := by
  unfold callbacksOf methodsOf
  cases frame.isPing with
  | true => rfl
  | false =>
    simp only [Bool.false_eq_true, if_false]
    cases Message.ofFrame h.platform frame with
    | ok m =>
      cases m with
      | dataMessage topic data => cases data <;> rfl
      | _ => rfl
    | _ => rfl

theorem isSome_result (phase : Phase) : (h.result phase).isSome ↔ phase.listens = false := by
  cases phase with
  | finished r => cases r <;> simp [Host.result, Phase.listens]
  | _ => simp [Host.result, Phase.listens]

/-- What service `k` of the object has done and may do. -/
structure Sound (h : Host) (σ : State) (k : ℕ) (r : Running) : Prop where
  stands : Stands r.setup r.service
  outboxes : r.service.outboxes = σ.held k
  /-- the events that tasks sent go out once each and in that order, and a close frame only when
  nobody can send any more -/
  handed : r.service.handed <+: r.setup.outbound (σ.sentTo k) ∨
    r.service.handed = r.setup.outbound (σ.sentTo k) ++ [Service.closeFrame] ∧ σ.held k = 0
  methods : r.service.callbacks = [] ∨ ∃ endpoint version told,
    r.service.callbacks.map h.method = .connected endpoint version :: told ∧
      told <+: r.service.received.flatMap (methodsOf h)
  /-- with nothing to send, it closes the connection exactly if nobody can send any more -/
  closes : r.service.phase = .waiting .select → r.service.channel = [] →
    ((∃ σ', σ.serve k .recv = some σ') ↔ σ.held k = 0)
  /-- `run` returns or raises once the service has ended, and not before -/
  returned : (h.result r.service.phase).isSome ↔ r.service.phase.listens = false

theorem Accounted.sound {k : ℕ} {r : Running} (ha : Accounted h σ k r) (hr : σ.services[k]? = some r) :
    Sound h σ k r := by
  have hd := ha.stands.delivered
  refine ⟨ha.stands, ha.outboxes, ?_, ?_, fun hp hch => ?_, isSome_result _⟩
  · rw [← ha.outboxes, ← ha.accepted]
    exact hd.order
  · obtain ⟨subscriptions, hc⟩ := ha.setup
    have hplatform : r.setup.platform = h.platform := by rw [hc]; rfl
    rcases ha.stands.callbacks with ⟨hnil, -⟩ | ⟨endpoint, version, told, hcs, htold⟩
    · exact .inl hnil
    · refine .inr ⟨endpoint, version, told.map h.method, by rw [hcs]; rfl, ?_⟩
      have hmap := htold.map h.method
      rw [List.map_flatMap, hplatform] at hmap
      simpa only [map_method] using hmap
  · have hrecv : r.service.step r.setup .recv =
        if r.service.outboxes = 0 then some { r.service with phase := .closing } else none := by
      simp only [Service.step, Service.recv]
      split
      · split
        · simp_all
        · rfl
      · simp_all
    rw [← ha.outboxes]
    by_cases ho : r.service.outboxes = 0
    · simp [State.serve, own, hr, hrecv, ho]
    · simp [State.serve, own, hr, hrecv, ho]

/-- Nobody holds an outbox of a service again once it was dropped by all. -/
structure Retired (before : List (String × Event)) (k : ℕ) (σ : State) : Prop where
  lt : k < σ.services.length
  outbox : σ.outbox ≠ some k
  tasks : ∀ t ∈ σ.spawned, t.target ≠ k
  sends : σ.sentTo k = before

theorem held_eq_zero_iff {k : ℕ} :
    σ.held k = 0 ↔ σ.outbox ≠ some k ∧ ∀ t ∈ σ.spawned, t.target ≠ k := by
  simp [State.held, List.countP_eq_zero]

theorem retired_take {before : List (String × Event)} {k : ℕ} (hr : Retired before k σ) :
    Retired before k σ.take := by
  obtain ⟨hco, htasks, hsends, -, hlen⟩ := σ.take_rest
  refine ⟨hlen ▸ hr.lt, by simp, ?_, ?_⟩
  · rw [State.spawned, hco, htasks]
    exact hr.tasks
  · rw [State.sentTo, hsends]
    exact hr.sends

theorem retired_send {before : List (String × Event)} {k : ℕ} {task : Task}
    {result : Except Exception Unit} {τ : State} (hr : Retired before k σ)
    (hs : σ.send task = some (result, τ)) (hservices : σ'.services = τ.services)
    (hsends : σ'.sends = τ.sends) (ho : σ'.outbox = τ.outbox)
    (hmem : ∀ t ∈ task :: σ'.spawned, t ∈ σ.spawned) : Retired before k σ' := by
  obtain ⟨hhead, hrest⟩ := List.forall_mem_cons.mp hmem
  have hlen : τ.services.length = σ.services.length := by
    obtain ⟨-, -, -, rfl, -⟩ := State.send_eq_some hs
    simp [State.release]
  refine ⟨?_, ?_, fun t ht => hr.tasks t (hrest t ht), ?_⟩
  · rw [hservices, hlen]
    exact hr.lt
  · rw [ho, (State.send_rest hs).2.2.2]
    exact hr.outbox
  · rw [State.sentTo, hsends]
    refine (sentTo_send hs k).trans ?_
    rw [List.filterMap_cons_none (acceptedBy_eq_none (hr.tasks task hhead)), List.filterMap_nil,
      List.append_nil, hr.sends]

theorem retired_moves {before : List (String × Event)} {k : ℕ} {a : Action} (hr : Retired before k σ)
    (hm : State.Moves h σ a σ') : Retired before k σ' := by
  have hmem : ∀ {co : Coroutine} {t : Task}, σ.coroutine = some co → co.task = some t →
      t ∈ σ.spawned := by
    intro co t hb ht
    simp [State.spawned, hb, ht]
  have htasks : ∀ t ∈ σ.tasks, t.target ≠ k := fun t ht => hr.tasks t (List.mem_append_right _ ht)
  cases hm with
  | failed => exact hr
  | busy => exact hr
  | ran =>
    obtain ⟨hlt, -, htasks, hsends⟩ := retired_take hr
    refine ⟨?_, by simpa using hlt.ne', htasks, hsends⟩
    simp only [List.length_append, List.length_singleton]
    omega
  | disconnected => exact retired_take hr
  | borrowed => exact ⟨hr.lt, hr.outbox, hr.tasks, hr.sends⟩
  | called => exact ⟨hr.lt, hr.outbox, htasks, hr.sends⟩
  | unconnected => exact ⟨hr.lt, hr.outbox, htasks, hr.sends⟩
  | resumed => exact ⟨hr.lt, hr.outbox, htasks, hr.sends⟩
  | cancelled => exact ⟨hr.lt, hr.outbox, htasks, hr.sends⟩
  | @detached j topic event hb =>
    refine ⟨hr.lt, hr.outbox, fun t ht => ?_, hr.sends⟩
    have hmem' : t ∈ σ.tasks ++ [⟨j, topic, event⟩] := ht
    rcases List.mem_append.mp hmem' with ht | ht
    · exact htasks t ht
    · obtain rfl := List.mem_singleton.mp ht
      exact hr.tasks _ (hmem hb rfl)
  | @spawned j topic event hb hj =>
    refine ⟨by simpa [State.retain] using hr.lt, hr.outbox, fun t ht => ?_, hr.sends⟩
    rcases List.mem_cons.mp ht with rfl | ht
    · rintro rfl
      exact hr.outbox hj
    · exact htasks t ht
  | @sent j topic event result τ hb hs =>
    obtain ⟨-, hsame, -, -⟩ := State.send_rest hs
    refine retired_send hr hs rfl rfl rfl (List.forall_mem_cons.mpr ⟨hmem hb rfl, fun t ht => ?_⟩)
    have hmem' : t ∈ τ.tasks := ht
    exact List.mem_append_right _ (hsame ▸ hmem')
  | sentAlone ht hs =>
    obtain ⟨hco, hsame, -, -⟩ := State.send_rest hs
    refine retired_send hr hs rfl rfl rfl (List.forall_mem_cons.mpr
      ⟨List.mem_append_right _ (List.mem_of_getElem? ht), fun t ht => ?_⟩)
    simp only [State.spawned, hco, hsame] at ht
    rcases List.mem_append.mp ht with ht | ht
    · exact List.mem_append_left _ ht
    · exact List.mem_append_right _ (List.mem_of_mem_eraseIdx ht)
  | served => exact ⟨by simpa using hr.lt, hr.outbox, hr.tasks, hr.sends⟩
  | raised => exact ⟨by simpa using hr.lt, hr.outbox, hr.tasks, hr.sends⟩

end

/-- Whatever the program, the scheduler and the servers do, every service of the object is sound, the
calls of `publish` that return have sent in their order, one raises only while another has not ended,
without an outbox or after the end of the service, `disconnect` drops the outbox of the object, and a
service whose outboxes were all dropped never gets another event. -/
theorem runs_sound (h : Host) (as : List Action) (σ : State) (hr : σ.Runs h as) :
    (∀ k r, σ.services[k]? = some r → Sound h σ k r) ∧
      (∀ k, (σ.publishedTo k).Sublist (σ.sentTo k)) ∧
      (∀ a σ', σ.step h a = some σ' → ∃ l, σ'.published = σ.published ++ l ∧
        ∀ p ∈ l, ∀ e, p.result = .error e → Refused σ p e) ∧
      (∀ σ', σ.disconnect = .ok σ' → ∀ k, σ'.held k = σ.tasks.countP fun t => t.target = k) ∧
      (∀ e, σ.disconnect = .error e → e = alreadyBorrowed ∧ σ.coroutine.isSome) ∧
      ∀ bs σ', Run (State.step h) σ bs σ' → ∀ k < σ.services.length, σ.held k = 0 →
        σ'.held k = 0 ∧ σ'.sentTo k = σ.sentTo k := by
  have hc := consistent hr
  have hn := answered hr
  refine ⟨fun k r hk => (hc.services k r hk).sound hk, fun k => ?_,
    fun a σ' hs => refused_moves hn (State.moves_of_step hs), fun _ => State.held_of_disconnect,
    fun _ => State.disconnect_error, fun bs σ' hrun k hk hheld => ?_⟩
  · exact (List.sublist_append_left _ _).trans (hn.order k)
  · obtain ⟨ho, ht⟩ := held_eq_zero_iff.mp hheld
    have key : Retired (σ.sentTo k) k σ' := Run.invariant (I := Retired (σ.sentTo k) k)
      ⟨hk, ho, ht, rfl⟩ (fun _ _ _ hret hs => retired_moves hret (State.moves_of_step hs)) hrun
    exact ⟨held_eq_zero_iff.mpr ⟨key.outbox, key.tasks⟩, key.sends⟩

def host : Host where
  platform := Sample.serverPlatform
  debug _ := ""
  parseUri _ := .ok ()
  protocolText _ := ""
  clientText _ := ""
  joinText := ""

/-- Publish, publish again before the first call has ended, give that up, and run the object a second
time while its task still sends. -/
def rerunLabels : List Action :=
  .run "ws://localhost" ["/ping"] (.ok ()) :: Sample.handshake.map (.serve 0) ++
    [.serve 0 .callbackDone, .publish "/ping" (.new "ping" []), .poll, .publish "/ping" (.new "ping" []),
      .cancel, .run "ws://localhost" [] (.ok ()), .sentAlone 0] ++
    [.recv, .send (.ok ()), .flushed, .recv, .send (.ok ())].map (.serve 0) ++ [.disconnect,
      .publish "/ping" (.new "ping" []), .poll]

theorem rerun_sound : ∃ σ : State, σ.Runs host rerunLabels ∧ σ.published.length = 2 ∧
    (σ.services.map fun r => r.service.handed.length) = [3, 0] ∧
    ∀ k r, σ.services[k]? = some r → Sound host σ k r := by
  obtain ⟨σ, hσ, hp⟩ : ∃ σ, rerunLabels.foldlM (State.step host) State.new = some σ ∧
      (σ.published.length == 2 &&
        (σ.services.map fun r => r.service.handed.length) == [3, 0]) = true :=
    (Option.any_eq_true _ _).mp (by decide +kernel)
  obtain ⟨hlen, hhanded⟩ := Bool.and_eq_true_iff.mp hp
  have hr : σ.Runs host rerunLabels := .of_foldlM hσ
  exact ⟨σ, hr, by simpa using hlen, by simpa using hhanded, (runs_sound host rerunLabels σ hr).1⟩

end ZWS.Python.Asyncio
