import ZeekWebSocket.Proofs.NodeTimespan
import ZeekWebSocket.Proofs.NodeTimestamp

/-! Counts on the way from Node. A number that is negative or has more than one word is refused, at
any depth, and with it the event it is in. -/

namespace ZWS.Node

open Base

namespace BigInt

/-- The number that the words stand for. -/
def magnitude (b : BigInt) : ℕ := Nat.ofDigits (2 ^ 64) (b.words.map UInt64.toNat)

def toInt (b : BigInt) : ℤ := if b.signBit then -b.magnitude else b.magnitude

/-- A number that a count can be. -/
def IsCount (b : BigInt) : Prop := 0 ≤ b.toInt ∧ b.toInt < 2 ^ 64

theorem magnitude_of_word {b : BigInt} (h : b.words.length = 1) :
    b.magnitude = (b.words.headD 0).toNat ∧ b.magnitude < 2 ^ 64 := by
  obtain ⟨w, hw⟩ := List.length_eq_one_iff.mp h
  simp only [magnitude, hw, List.map_cons, List.map_nil, Nat.ofDigits_singleton, List.headD_cons,
    true_and]
  exact w.toNat_lt

theorem toInt_of_word {b : BigInt} (hsign : b.signBit = false) (h : b.words.length = 1) :
    b.toInt = (b.words.headD 0).toNat := by
  rw [toInt, hsign, if_neg Bool.false_ne_true, (magnitude_of_word h).1]

theorem isCount_of_word {b : BigInt} (hsign : b.signBit = false) (h : b.words.length = 1) :
    b.IsCount := by
  have hto := toInt_of_word hsign h
  have hlt := (b.words.headD 0).toNat_lt
  exact ⟨by omega, by omega⟩

end BigInt

/-- `w` is `v` or a part of it. -/
inductive Inside (w : Value) : Value → Prop
  | self : Inside w w
  | vector {xs x} : x ∈ xs → Inside w x → Inside w (.vector xs)
  | set {xs x} : x ∈ xs → Inside w x → Inside w (.set xs)
  | key {es e} : e ∈ es → Inside w e.1 → Inside w (.table es)
  | entry {es e} : e ∈ es → Inside w e.2 → Inside w (.table es)

/-- The leaf that the conversion gives up at. -/
def Refused (P : Platform) : Value → Prop
  | .count b => b.signBit = true ∨ b.words.length ≠ 1
  | .address s => P.parseAddr s = none
  | .subnet s => P.parseNetwork s = none
  | _ => False

/-- The value on the other side: its counts are the same numbers, and its containers hold what
corresponds to the elements. -/
inductive Carries : Value → ZWS.Value → Prop
  | count {b n} : b.toInt = n.toNat → Carries (.count b) (.count n)
  | leaf {v z} : v.IsLeaf → z.discriminant < 12 → (∀ b, v ≠ .count b) → (∀ n, z ≠ .count n) →
      Carries v z
  | vector {xs zs} : List.Forall₂ Carries xs zs → Carries (.vector xs) (.vector zs)
  | set {xs zs} : List.Forall₂ Carries xs zs →
      Carries (.set xs) (.set (collectBy ZWS.Value.cmp keepNew zs))
  | table {es fs} : List.Forall₂ Carries (es.map Prod.fst) (fs.map Prod.fst) →
      List.Forall₂ Carries (es.map Prod.snd) (fs.map Prod.snd) →
      Carries (.table es) (.table (collectBy (byKey ZWS.Value.cmp) keepNew fs))

namespace Value

variable {P : Platform}

theorem inside_leaf {v w : Value} (h : v.IsLeaf) : Inside w v ↔ w = v := by
  refine ⟨fun hw => ?_, fun hw => hw ▸ .self⟩
  cases hw with
  | self => rfl
  | vector => exact h.elim
  | set => exact h.elim
  | key => exact h.elim
  | entry => exact h.elim

theorem forall_inside_vector {C : Value → Prop} {xs : List Value} :
    (∀ w, Inside w (.vector xs) → C w) ↔ C (.vector xs) ∧ ∀ x ∈ xs, ∀ w, Inside w x → C w := by
  refine ⟨fun h => ⟨h _ .self, fun x hx w hw => h w (.vector hx hw)⟩, fun h w hw => ?_⟩
  cases hw with
  | self => exact h.1
  | vector hx hw => exact h.2 _ hx w hw

theorem forall_inside_set {C : Value → Prop} {xs : List Value} :
    (∀ w, Inside w (.set xs) → C w) ↔ C (.set xs) ∧ ∀ x ∈ xs, ∀ w, Inside w x → C w := by
  refine ⟨fun h => ⟨h _ .self, fun x hx w hw => h w (.set hx hw)⟩, fun h w hw => ?_⟩
  cases hw with
  | self => exact h.1
  | set hx hw => exact h.2 _ hx w hw

theorem forall_inside_table {C : Value → Prop} {es : List (Value × Value)} :
    (∀ w, Inside w (.table es) → C w) ↔
      C (.table es) ∧ ∀ e ∈ es, (∀ w, Inside w e.1 → C w) ∧ ∀ w, Inside w e.2 → C w := by
  refine ⟨fun h => ⟨h _ .self, fun e he =>
      ⟨fun w hw => h w (.key he hw), fun w hw => h w (.entry he hw)⟩⟩,
    fun h w hw => ?_⟩
  cases hw with
  | self => exact h.1
  | key he hw => exact (h.2 _ he).1 w hw
  | entry he hw => exact (h.2 _ he).2 w hw

/-- A leaf is refused, or becomes a leaf, the same number if it is a count. -/
theorem toZeek_leaf {v : Value} (h : v.IsLeaf) :
    (Refused P v ∧ ∃ e, toZeek P v = .err e) ∨
      (¬ Refused P v ∧ ∃ z, toZeek P v = .ok z ∧ Carries v z) := by
  cases v with
  | count b =>
    cases hsign : b.signBit with
    | true => exact .inl ⟨.inl hsign, by simp [toZeek, BigInt.getU64, hsign]⟩
    | false =>
      by_cases hword : b.words.length = 1
      · refine .inr ⟨by simp [Refused, hsign, hword], .count (b.words.headD 0), ?_, ?_⟩
        · simp [toZeek, BigInt.getU64, hsign, hword]
        · exact .count (BigInt.toInt_of_word hsign hword)
      · exact .inl ⟨.inr hword, by simp [toZeek, BigInt.getU64, hword]⟩
  | timespan nanos =>
    obtain ⟨d, -, hd⟩ := toZeek_timespan (P := P) nanos
    exact .inr ⟨id, _, hd, .leaf h (by simp [ZWS.Value.discriminant]) (by simp) (by simp)⟩
  | timestamp nanos =>
    obtain ⟨t, ht, -⟩ := toZeek_timestamp P nanos
    exact .inr ⟨id, _, ht, .leaf h (by simp [ZWS.Value.discriminant]) (by simp) (by simp)⟩
  | address s =>
    cases hparse : P.parseAddr s with
    | none => exact .inl ⟨hparse, by simp [toZeek, hparse, Outcome.ofOption]⟩
    | some a =>
      refine .inr ⟨by simp [Refused, hparse], .address a, by simp [toZeek, hparse, Outcome.ofOption], ?_⟩
      exact .leaf h (by simp [ZWS.Value.discriminant]) (by simp) (by simp)
  | subnet s =>
    cases hparse : P.parseNetwork s with
    | none => exact .inl ⟨hparse, by simp [toZeek, hparse, Outcome.ofOption]⟩
    | some n =>
      refine .inr ⟨by simp [Refused, hparse], .subnet n, by simp [toZeek, hparse, Outcome.ofOption], ?_⟩
      exact .leaf h (by simp [ZWS.Value.discriminant]) (by simp) (by simp)
  | vector xs => exact h.elim
  | set xs => exact h.elim
  | table es => exact h.elim
  | _ => exact .inr ⟨id, _, rfl, .leaf h (by simp [ZWS.Value.discriminant]) (by simp) (by simp)⟩

theorem toZeek_leaf_ne_panic {v : Value} (h : v.IsLeaf) : toZeek P v ≠ .panic := by
  rcases toZeek_leaf (P := P) h with ⟨-, e, he⟩ | ⟨-, z, hz, -⟩
  · simp [he]
  · simp [hz]

theorem exists_toZeek_leaf {v : Value} (h : v.IsLeaf) :
    (∃ z, toZeek P v = .ok z) ↔ ¬ Refused P v := by
  rcases toZeek_leaf (P := P) h with ⟨hr, e, he⟩ | ⟨hr, z, hz, -⟩
  · simp [he, hr]
  · simp [hz, hr]

theorem toZeek_ne_panic (v : Value) : toZeek P v ≠ .panic := by
  induction v using induct with
  | leaf v h => exact toZeek_leaf_ne_panic h
  | vector xs ih => simp [toZeek_vector, Outcome.bind_eq_panic, Outcome.mapM_ne_panic ih]
  | set xs ih => simp [toZeek_set, Outcome.bind_eq_panic, Outcome.mapM_ne_panic ih]
  | table es ih =>
    have hentry : ∀ e ∈ es, toZeekEntry P e ≠ .panic := fun e he => by
      simp [toZeekEntry, Outcome.bind_eq_panic, (ih e he).1, (ih e he).2]
    simp [toZeek_table, Outcome.bind_eq_panic, Outcome.mapM_ne_panic hentry]

/-- The conversion succeeds exactly if it gives up at no part. -/
theorem exists_toZeek_iff (v : Value) :
    (∃ z, toZeek P v = .ok z) ↔ ∀ w, Inside w v → ¬ Refused P w := by
  induction v using induct with
  | leaf v h => simp only [exists_toZeek_leaf h, inside_leaf h, forall_eq]
  | vector xs ih =>
    have hself : ¬ Refused P (.vector xs) := id
    rw [toZeek_vector, Outcome.exists_bind_ok, Outcome.exists_mapM_ok, forall_inside_vector,
      and_iff_right hself]
    exact forall₂_congr ih
  | set xs ih =>
    have hself : ¬ Refused P (.set xs) := id
    rw [toZeek_set, Outcome.exists_bind_ok, Outcome.exists_mapM_ok, forall_inside_set,
      and_iff_right hself]
    exact forall₂_congr ih
  | table es ih =>
    have hself : ¬ Refused P (.table es) := id
    rw [toZeek_table, Outcome.exists_bind_ok, Outcome.exists_mapM_ok, forall_inside_table,
      and_iff_right hself]
    refine forall₂_congr fun e he => ?_
    rw [← (ih e he).1, ← (ih e he).2]
    simp [toZeekEntry, Outcome.bind_eq_ok]

theorem carries_leaf {v : Value} {z : ZWS.Value} (h : v.IsLeaf) (hz : toZeek P v = .ok z) :
    Carries v z := by
  rcases toZeek_leaf (P := P) h with ⟨-, e, he⟩ | ⟨-, z', hz', hcarries⟩
  · simp [he] at hz
  · obtain rfl := Outcome.ok.inj (hz'.symm.trans hz)
    exact hcarries

/-- The result has the same counts. -/
theorem carries_of_toZeek {v : Value} {z : ZWS.Value} (hz : toZeek P v = .ok z) : Carries v z := by
  have hseq : ∀ xs : List Value, (∀ x ∈ xs, ∀ z, toZeek P x = .ok z → Carries x z) →
      ∀ zs, xs.mapM (toZeek P) = .ok zs → List.Forall₂ Carries xs zs := by
    intro xs ih zs hzs
    exact forall₂_of_mem (Outcome.mapM_eq_ok.mp hzs) ih
  induction v using induct generalizing z with
  | leaf v h => exact carries_leaf h hz
  | vector xs ih =>
    rw [toZeek_vector] at hz
    obtain ⟨zs, hzs, hz⟩ := Outcome.bind_eq_ok.mp hz
    obtain rfl := Outcome.ok.inj hz
    exact .vector (hseq xs (fun x hx z => ih x hx) zs hzs)
  | set xs ih =>
    rw [toZeek_set] at hz
    obtain ⟨zs, hzs, hz⟩ := Outcome.bind_eq_ok.mp hz
    obtain rfl := Outcome.ok.inj hz
    exact .set (hseq xs (fun x hx z => ih x hx) zs hzs)
  | table es ih =>
    rw [toZeek_table] at hz
    obtain ⟨fs, hfs, hz⟩ := Outcome.bind_eq_ok.mp hz
    obtain rfl := Outcome.ok.inj hz
    have hentries : List.Forall₂ (fun e f => Carries e.1 f.1 ∧ Carries e.2 f.2) es fs := by
      refine forall₂_of_mem (Outcome.mapM_eq_ok.mp hfs) fun e he f hf => ?_
      obtain ⟨hk, hv⟩ := Outcome.pair_eq_ok.mp hf
      exact ⟨(ih e he).1 hk, (ih e he).2 hv⟩
    refine .table ?_ ?_
    · exact List.forall₂_map_left_iff.mpr (List.forall₂_map_right_iff.mpr (hentries.imp fun _ _ h => h.1))
    · exact List.forall₂_map_left_iff.mpr (List.forall₂_map_right_iff.mpr (hentries.imp fun _ _ h => h.2))

end Value

namespace Event

/-- `w` is an argument or metadata of the event, or a part of one. -/
def Contains (e : Event) (w : Value) : Prop := ∃ v ∈ e.args ++ e.metadata, Inside w v

/-- The event on the other side. -/
def Carries (e : Event) (z : ZWS.Event) : Prop :=
  z.name = e.name ∧ List.Forall₂ Node.Carries e.args z.args ∧
    List.Forall₂ Node.Carries e.metadata z.metadata

variable {P : Platform} {e : Event}

theorem forall_contains {C : Value → Prop} :
    (∀ w, e.Contains w → C w) ↔ ∀ v ∈ e.args ++ e.metadata, ∀ w, Inside w v → C w := by
  refine ⟨fun h v hv w hw => h w ⟨v, hv, hw⟩, ?_⟩
  rintro h w ⟨v, hv, hw⟩
  exact h v hv w hw

theorem toZeek_ne_panic : e.toZeek P ≠ .panic := by
  simp [toZeek, Outcome.bind_eq_panic, Outcome.mapM_ne_panic, Value.toZeek_ne_panic]

theorem exists_toZeek_iff :
    (∃ z, e.toZeek P = .ok z) ↔ ∀ w, e.Contains w → ¬ Refused P w := by
  rw [forall_contains, List.forall_mem_append]
  simp only [← Value.exists_toZeek_iff, ← Outcome.exists_mapM_ok]
  simp [toZeek, Outcome.bind_eq_ok]

theorem toZeek_fails_iff : (e.toZeek P).Fails ↔ ∃ w, e.Contains w ∧ Refused P w := by
  have hok := exists_toZeek_iff (P := P) (e := e)
  cases h : e.toZeek P with
  | ok z =>
    have hnone := hok.mp ⟨z, h⟩
    simpa [Outcome.Fails] using hnone
  | err x =>
    simp only [h, reduceCtorEq, exists_false, false_iff, not_forall, not_not] at hok
    simpa using hok
  | panic => exact absurd h toZeek_ne_panic

theorem carries_of_toZeek {z : ZWS.Event} (hz : e.toZeek P = .ok z) : e.Carries z := by
  obtain ⟨args, hargs, hz⟩ := Outcome.bind_eq_ok.mp hz
  obtain ⟨metadata, hmeta, hz⟩ := Outcome.bind_eq_ok.mp hz
  obtain rfl := Outcome.ok.inj hz
  refine ⟨rfl, forall₂_of_mem (Outcome.mapM_eq_ok.mp hargs) fun x _ z hxz => ?_,
    forall₂_of_mem (Outcome.mapM_eq_ok.mp hmeta) fun x _ z hxz => ?_⟩
  · exact Value.carries_of_toZeek hxz
  · exact Value.carries_of_toZeek hxz

end Event

/-- What is sent has the counts of the event, and an event with a number that is no count is
sent nowhere. -/
structure Guarded (P : Platform) (b : ProtocolBinding) (topic : String) (e : Event) : Prop where
  kept : ∀ z, e.toZeek P = .ok z → (∀ c, e.Contains (.count c) → c.IsCount) ∧ e.Carries z
  rejected : ∀ c, e.Contains (.count c) → ¬ c.IsCount → (e.toZeek P).Fails ∧
    (serializeJson P (.event topic e)).Fails ∧ (b.publishEvent P topic e).1.Fails ∧
      (b.publishEvent P topic e).2 = b

section
variable {P : Platform} {b : ProtocolBinding} {topic : String} {e : Event}

/-- A conversion that fails does so before anything is sent. -/
theorem rejected_of_fails (h : (e.toZeek P).Fails) :
    (serializeJson P (.event topic e)).Fails ∧ (b.publishEvent P topic e).1.Fails ∧
      (b.publishEvent P topic e).2 = b := by
  obtain ⟨x, hx⟩ := h
  simp [serializeJson, Message.toZeek, ProtocolBinding.publishEvent, hx]

/-- A count that is let through is a number that a count can be. -/
theorem isCount_of_not_refused {c : BigInt} (h : ¬ Refused P (.count c)) : c.IsCount := by
  obtain ⟨hsign, hword⟩ := not_or.mp h
  exact BigInt.isCount_of_word (Bool.eq_false_iff.mpr hsign) (not_not.mp hword)

/-- An event comes through with the counts it has, or is refused for one that is none. -/
theorem counts_guarded (P : Platform) (b : ProtocolBinding) (topic : String) (e : Event) :
    Guarded P b topic e := by
  constructor
  · intro z hz
    have hnone : ∀ w, e.Contains w → ¬ Refused P w := Event.exists_toZeek_iff.mp ⟨z, hz⟩
    exact ⟨fun c hc => isCount_of_not_refused (hnone _ hc), Event.carries_of_toZeek hz⟩
  · intro c hc hcount
    have hrefused : Refused P (.count c) := by
      by_contra hr
      exact hcount (isCount_of_not_refused hr)
    have hfails : (e.toZeek P).Fails := Event.toZeek_fails_iff.mpr ⟨_, hc, hrefused⟩
    exact ⟨hfails, rejected_of_fails hfails⟩

end

end ZWS.Node
