import ZeekWebSocket.Sanity.Python

/-! Outside records the values of the Python bindings and those of the library are in bijection.
Sets and tables are sorted anew on either side, and since both conversions keep different
elements different, nothing in them is lost, merged or paired with something else. -/

namespace ZWS

open Base

theorem IpAddr.cmp_eq_eq {a b : IpAddr} : a.cmp b = .eq ↔ a = b := by
  cases a <;> cases b <;> simp [IpAddr.cmp, BitVec.toNat_inj]

theorem IpNetwork.cmp_eq_eq {m n : IpNetwork} : m.cmp n = .eq ↔ m = n := by
  cases m <;> cases n <;> simp [IpNetwork.cmp, BitVec.toNat_inj, Ordering.then_eq_eq, Fin.ext_iff]

theorem Port.cmp_eq_eq {p q : Port} : p.cmp q = .eq ↔ p = q := by
  obtain ⟨m, a⟩ := p
  obtain ⟨n, b⟩ := q
  have hproto : a.discriminant = b.discriminant ↔ a = b := by
    cases a <;> cases b <;> decide
  simp [Port.cmp, Ordering.then_eq_eq, UInt16.toNat_inj, hproto]

theorem IpNetwork.parts_of_new {a : IpAddr} {len : UInt8} {n : IpNetwork} (h : IpNetwork.new a len = .ok n) :
    n.ip = a ∧ n.prefixLen = len := by
  cases a with
  | v4 a =>
    simp only [new] at h
    split at h
    · obtain rfl := Except.ok.inj h
      simp [ip, prefixLen]
    · cases h
  | v6 a =>
    simp only [new] at h
    split at h
    · obtain rfl := Except.ok.inj h
      simp [ip, prefixLen]
    · cases h

namespace Python

theorem Protocol.toRust_ofRust (p : ZWS.Protocol) : (Protocol.ofRust p).toRust = p := by
  cases p <;> rfl

theorem Protocol.ofRust_toRust (p : Protocol) : Protocol.ofRust p.toRust = p := by
  cases p <;> rfl

namespace Value

/-- Equal entries have equal keys and equal values. -/
def EqualEntry (e f : Value × Value) : Prop := Equal e.1 f.1 ∧ Equal e.2 f.2

def EqualRust (e f : ZWS.Value × ZWS.Value) : Prop := e.1.Equal f.1 ∧ e.2.Equal f.2

theorem collectBy_equal {xs ys : List Value} (h : List.Forall₂ Equal xs ys) :
    List.Forall₂ Equal (collectBy cmp keepNew xs) (collectBy cmp keepNew ys) :=
  collectBy_congr (R := Equal) (fun _ _ _ _ hx hy => cmp_congr hx hy) (fun _ _ _ _ _ hy => hy) h

theorem collectBy_equalEntry {es fs : List (Value × Value)} (h : List.Forall₂ EqualEntry es fs) :
    List.Forall₂ EqualEntry (collectBy (byKey cmp) keepNew es) (collectBy (byKey cmp) keepNew fs) :=
  collectBy_congr (R := EqualEntry) (fun _ _ _ _ he hf => cmp_congr he.1 hf.1) (fun _ _ _ _ _ hf => hf) h

/-- Values that are equal in Rust are equal in Python. -/
theorem ofRust_equal {v w : ZWS.Value} (h : v.Equal w) : Equal (ofRust v) (ofRust w) := by
  induction v using ZWS.Value.induct generalizing w with
  | leaf v hv =>
    have hd := h.discriminant
    cases v <;> cases w <;> first
      | (simp [ZWS.Value.discriminant] at hd; done)
      | (simp [ZWS.Value.discriminant] at hv; done)
      | exact h
      | (obtain rfl := IpNetwork.cmp_eq_eq.mp h; exact Equal.refl _)
      | (obtain rfl := Port.cmp_eq_eq.mp h; exact Equal.refl _)
  | vector xs ih =>
    obtain ⟨ys, rfl, hxs⟩ := ZWS.Value.equal_vector.mp h
    simp only [ofRust, ofRustSeq_eq]
    refine equal_vector.mpr ⟨_, rfl, ?_⟩
    rw [List.forall₂_map_left_iff, List.forall₂_map_right_iff]
    exact forall₂_of_mem hxs fun x hx y hxy => ih x hx hxy
  | set xs ih =>
    obtain ⟨ys, rfl, hxs⟩ := ZWS.Value.equal_set.mp h
    simp only [ofRust, ofRustSeq_eq]
    refine equal_set.mpr ⟨_, rfl, collectBy_equal ?_⟩
    rw [List.forall₂_map_left_iff, List.forall₂_map_right_iff]
    exact forall₂_of_mem hxs fun x hx y hxy => ih x hx hxy
  | table es ih =>
    obtain ⟨fs, rfl, hes⟩ := ZWS.Value.equal_table.mp h
    simp only [ofRust, ofRustEntries_eq]
    refine equal_table.mpr ⟨_, rfl, collectBy_equalEntry ?_⟩
    rw [List.forall₂_map_left_iff, List.forall₂_map_right_iff]
    exact forall₂_of_mem hes fun e he f hef => ⟨(ih e he).1 hef.1, (ih e he).2 hef.2⟩

theorem subnet_equal {a b : IpAddr} {m n : UInt8} (h : Equal (.subnet a m) (.subnet b n)) :
    a = b ∧ m = n := by
  rw [Equal, cmp, Ordering.then_eq_eq, IpAddr.cmp_eq_eq, Nat.compare_eq_eq, UInt8.toNat_inj] at h
  exact h

theorem port_equal {m n : UInt16} {p q : Protocol} (h : Equal (.port m p) (.port n q)) :
    m = n ∧ p = q := by
  have hproto : p.discriminant = q.discriminant ↔ p = q := by
    cases p <;> cases q <;> decide
  rw [Equal, cmp, Ordering.then_eq_eq, Nat.compare_eq_eq, Nat.compare_eq_eq, UInt16.toNat_inj,
    hproto] at h
  exact h

/-- Values that are equal in Python are converted to values that are equal in Rust, or both
not at all. -/
theorem toRust_equal {p q : Value} {v : ZWS.Value} (h : Equal p q) (hv : toRust p = .ok v) :
    ∃ w, toRust q = .ok w ∧ v.Equal w := by
  induction p using induct generalizing q v with
  | leaf p hp =>
    have hd := h.discriminant
    cases p <;> cases q <;> first
      | (simp [discriminant] at hd; done)
      | exact hp.elim
      | (obtain rfl := Outcome.ok.inj hv; exact ⟨_, rfl, h⟩)
      | (obtain ⟨rfl, rfl⟩ := subnet_equal h; exact ⟨_, hv, .refl _⟩)
      | (obtain ⟨rfl, rfl⟩ := port_equal h; exact ⟨_, hv, .refl _⟩)
  | vector xs ih =>
    obtain ⟨ys, rfl, hxs⟩ := equal_vector.mp h
    rw [toRust_vector] at hv ⊢
    obtain ⟨vs, hvs, hv⟩ := Outcome.bind_eq_ok.mp hv
    obtain rfl := Outcome.ok.inj hv
    obtain ⟨ws, hws, hequal⟩ := Outcome.mapM_related
      (forall₂_of_mem hxs fun x hx y hxy v hv => ih x hx hxy hv) hvs
    exact ⟨.vector ws, by rw [hws]; rfl, ZWS.Value.equal_vector.mpr ⟨ws, rfl, hequal⟩⟩
  | set xs ih =>
    obtain ⟨ys, rfl, hxs⟩ := equal_set.mp h
    rw [toRust_set] at hv ⊢
    obtain ⟨vs, hvs, hv⟩ := Outcome.bind_eq_ok.mp hv
    obtain rfl := Outcome.ok.inj hv
    obtain ⟨ws, hws, hequal⟩ := Outcome.mapM_related
      (forall₂_of_mem hxs fun x hx y hxy v hv => ih x hx hxy hv) hvs
    refine ⟨_, by rw [hws]; rfl, ZWS.Value.equal_set.mpr ⟨_, rfl, ?_⟩⟩
    exact collectBy_congr (R := ZWS.Value.Equal) (fun _ _ _ _ hx hy => ZWS.Value.cmp_congr hx hy)
      (fun _ _ _ _ _ hy => hy) hequal
  | table es ih =>
    obtain ⟨fs, rfl, hes⟩ := equal_table.mp h
    rw [toRust_table] at hv ⊢
    obtain ⟨vs, hvs, hv⟩ := Outcome.bind_eq_ok.mp hv
    obtain rfl := Outcome.ok.inj hv
    have hentry : List.Forall₂ (fun e f => ∀ v, toRustEntry e = .ok v →
        ∃ w, toRustEntry f = .ok w ∧ EqualRust v w) es fs :=
      forall₂_of_mem hes fun e he f hef v hv => by
        obtain ⟨hk, hv⟩ := toRustEntry_eq_ok.mp hv
        obtain ⟨k', hk', hkk⟩ := (ih e he).1 hef.1 hk
        obtain ⟨v', hv', hvv⟩ := (ih e he).2 hef.2 hv
        exact ⟨(k', v'), toRustEntry_eq_ok.mpr ⟨hk', hv'⟩, hkk, hvv⟩
    obtain ⟨ws, hws, hequal⟩ := Outcome.mapM_related hentry hvs
    refine ⟨_, by rw [hws]; rfl, ZWS.Value.equal_table.mpr ⟨_, rfl, ?_⟩⟩
    exact collectBy_congr (R := EqualRust) (fun _ _ _ _ he hf => ZWS.Value.cmp_congr he.1 hf.1)
      (fun _ _ _ _ _ hf => hf) hequal
  | record fs ih =>
    obtain ⟨gs, rfl, hfs⟩ := equal_record.mp h
    rw [toRust_record, toRust_vector, List.mapM_map] at hv ⊢
    obtain ⟨vs, hvs, hv⟩ := Outcome.bind_eq_ok.mp hv
    obtain rfl := Outcome.ok.inj hv
    have hfield : List.Forall₂ (fun f g => ∀ v, (toRust ∘ Prod.snd) f = .ok v →
        ∃ w, (toRust ∘ Prod.snd) g = .ok w ∧ v.Equal w) fs gs :=
      forall₂_of_mem hfs fun f hf g hfg v hv => ih f hf hfg.2 hv
    obtain ⟨ws, hws, hequal⟩ := Outcome.mapM_related hfield hvs
    exact ⟨.vector ws, by rw [hws]; rfl, ZWS.Value.equal_vector.mpr ⟨ws, rfl, hequal⟩⟩

/-- `v` and `p` are converted into each other. -/
def Same (v : ZWS.Value) (p : Value) : Prop := toRust p = .ok v ∧ ofRust v = p

def SameEntry (e : ZWS.Value × ZWS.Value) (f : Value × Value) : Prop :=
  Same e.1 f.1 ∧ Same e.2 f.2

/-- What is different in Rust is different in Python. -/
theorem Same.equal_iff {v w : ZWS.Value} {p q : Value} (hv : Same v p) (hw : Same w q) :
    v.Equal w ↔ Equal p q := by
  refine ⟨?_, ?_⟩
  · intro h
    rw [← hv.2, ← hw.2]
    exact ofRust_equal h
  · intro h
    obtain ⟨w', hw', hvw⟩ := toRust_equal h hv.1
    obtain rfl := Outcome.ok.inj (hw.1.symm.trans hw')
    exact hvw

theorem mapM_toRust_of_same {vs : List ZWS.Value} {ps : List Value} (h : List.Forall₂ Same vs ps) :
    ps.mapM toRust = .ok vs :=
  Outcome.mapM_eq_ok.mpr (h.flip.imp fun _ _ hp => hp.1)

theorem mapM_toRustEntry_of_same {es : List (ZWS.Value × ZWS.Value)} {fs : List (Value × Value)}
    (h : List.Forall₂ SameEntry es fs) : fs.mapM toRustEntry = .ok es :=
  Outcome.mapM_eq_ok.mpr (h.flip.imp fun _ _ hf => toRustEntry_eq_ok.mpr ⟨hf.1.1, hf.2.1⟩)

theorem map_ofRust_of_same {vs : List ZWS.Value} {ps : List Value} (h : List.Forall₂ Same vs ps) :
    vs.map ofRust = ps := by
  rw [← List.forall₂_eq_eq_eq, List.forall₂_map_left_iff]
  exact h.imp fun _ _ hp => hp.2

theorem map_ofRustEntry_of_same {es : List (ZWS.Value × ZWS.Value)} {fs : List (Value × Value)}
    (h : List.Forall₂ SameEntry es fs) : es.map (fun e => (ofRust e.1, ofRust e.2)) = fs := by
  rw [← List.forall₂_eq_eq_eq, List.forall₂_map_left_iff]
  exact h.imp fun _ _ hf => Prod.ext hf.1.2 hf.2.2

theorem same_vector {vs : List ZWS.Value} {ps : List Value} (h : List.Forall₂ Same vs ps) :
    Same (.vector vs) (.vector ps) := by
  refine ⟨?_, ?_⟩
  · rw [toRust_vector, mapM_toRust_of_same h]
    rfl
  · rw [ofRust, ofRustSeq_eq, map_ofRust_of_same h]

/-- Different elements stay what they are while both trees sort them. -/
theorem same_set {vs : List ZWS.Value} {ps : List Value} (h : List.Forall₂ Same vs ps)
    (hvs : vs.Pairwise fun a b => ZWS.Value.cmp b a ≠ .eq) :
    Same (.set (collectBy ZWS.Value.cmp keepNew vs)) (.set (collectBy cmp keepNew ps)) := by
  have hne : ∀ v w p q, Same v p → Same w q → (ZWS.Value.cmp w v ≠ .eq ↔ cmp q p ≠ .eq) :=
    fun v w p q hv hw => not_congr (hw.equal_iff hv)
  have hps : ps.Pairwise fun a b => cmp b a ≠ .eq :=
    pairwise_of_forall₂ (fun v w p q hv hw => (hne v w p q hv hw).mp) h hvs
  refine ⟨?_, ?_⟩
  · obtain ⟨us, hus, -, hcollect⟩ := exists_collectBy_related keepNew_picks
      keepNew_picks (fun v w p q hv hw => (hne v w p q hv hw).mp) h hvs
    rw [toRust_set, mapM_toRust_of_same hus, Outcome.ok_bind, hcollect]
  · obtain ⟨us, hus, -, hcollect⟩ := exists_collectBy_related keepNew_picks
      keepNew_picks (fun p q v w hv hw => (hne v w p q hv hw).mpr) h.flip hps
    rw [ofRust, ofRustSeq_eq, map_ofRust_of_same hus.flip, hcollect]

theorem same_table {es : List (ZWS.Value × ZWS.Value)} {fs : List (Value × Value)}
    (h : List.Forall₂ SameEntry es fs)
    (hes : es.Pairwise fun e f => byKey ZWS.Value.cmp f e ≠ .eq) :
    Same (.table (collectBy (byKey ZWS.Value.cmp) keepNew es))
      (.table (collectBy (byKey cmp) keepNew fs)) := by
  have hne : ∀ e f g h, SameEntry e g → SameEntry f h →
      (byKey ZWS.Value.cmp f e ≠ .eq ↔ byKey cmp h g ≠ .eq) :=
    fun e f g h he hf => not_congr (hf.1.equal_iff he.1)
  have hfs : fs.Pairwise fun e f => byKey cmp f e ≠ .eq :=
    pairwise_of_forall₂ (fun e f g h he hf => (hne e f g h he hf).mp) h hes
  refine ⟨?_, ?_⟩
  · obtain ⟨us, hus, -, hcollect⟩ := exists_collectBy_related keepNew_picks keepNew_picks
      (fun e f g h he hf => (hne e f g h he hf).mp) h hes
    rw [toRust_table, mapM_toRustEntry_of_same hus, Outcome.ok_bind, hcollect]
  · obtain ⟨us, hus, -, hcollect⟩ := exists_collectBy_related keepNew_picks keepNew_picks
      (fun g h e f he hf => (hne e f g h he hf).mpr) h.flip hfs
    rw [ofRust, ofRustEntries_eq, map_ofRustEntry_of_same hus.flip, hcollect]

theorem same_ofRust {v : ZWS.Value} (h : v.Canonical) : Same v (ofRust v) := by
  induction v using ZWS.Value.induct with
  | leaf v hv =>
    cases v with
    | subnet n =>
      refine ⟨?_, rfl⟩
      simp only [ofRust, toRust, IpNetwork.new_ip_prefixLen]
      rfl
    | port p =>
      refine ⟨?_, rfl⟩
      simp only [ofRust, toRust, Protocol.toRust_ofRust]
    | vector xs => simp [ZWS.Value.discriminant] at hv
    | set xs => simp [ZWS.Value.discriminant] at hv
    | table es => simp [ZWS.Value.discriminant] at hv
    | _ => exact ⟨rfl, rfl⟩
  | vector xs ih =>
    obtain ⟨-, hxs⟩ := ZWS.Value.forall_parts_vector.mp h
    rw [ofRust, ofRustSeq_eq]
    refine same_vector (List.forall₂_map_right_iff.mpr (List.forall₂_same.mpr fun x hx => ?_))
    exact ih x hx (hxs x hx)
  | set xs ih =>
    obtain ⟨hasc, hxs⟩ := ZWS.Value.forall_parts_set.mp h
    have hsame : List.Forall₂ Same xs (xs.map ofRust) :=
      List.forall₂_map_right_iff.mpr (List.forall₂_same.mpr fun x hx => ih x hx (hxs x hx))
    have key := same_set hsame hasc.distinct
    rwa [collectBy_of_ascending hasc, ← ofRustSeq_eq] at key
  | table es ih =>
    obtain ⟨hasc, hes⟩ := ZWS.Value.forall_parts_table.mp h
    have hsame : List.Forall₂ SameEntry es (es.map fun e => (ofRust e.1, ofRust e.2)) :=
      List.forall₂_map_right_iff.mpr (List.forall₂_same.mpr fun e he =>
        ⟨(ih e he).1 (hes e he).1, (ih e he).2 (hes e he).2⟩)
    have key := same_table hsame hasc.distinct
    rwa [collectBy_of_ascending hasc, ← ofRustEntries_eq] at key

def RecordFree (p : Value) : Prop := ∀ w ∈ p.parts, ∀ fs, w ≠ .record fs

/-- A subnet whose prefix is longer than the addresses of its family. -/
def Oversized : Value → Prop
  | .subnet (.v4 _) len => 32 < len.toNat
  | .subnet (.v6 _) len => 128 < len.toNat
  | _ => False

/-- No subnet in the value is oversized. -/
def Fits (p : Value) : Prop := ∀ w ∈ p.parts, ¬ w.Oversized

theorem exists_new_ok {a : IpAddr} {len : UInt8} :
    (∃ n, IpNetwork.new a len = .ok n) ↔ ¬ Oversized (.subnet a len) := by
  cases a with
  | v4 a =>
    simp only [IpNetwork.new, Oversized, not_lt]
    split <;> simp <;> omega
  | v6 a =>
    simp only [IpNetwork.new, Oversized, not_lt]
    split <;> simp <;> omega

theorem exists_same {p : Value} (hc : p.Canonical) (hr : p.RecordFree) (hf : p.Fits) :
    ∃ v, Same v p := by
  induction p using induct with
  | leaf p hp =>
    cases p with
    | subnet a len =>
      obtain ⟨n, hn⟩ := exists_new_ok.mpr (hf (.subnet a len) (by simp [parts]))
      obtain ⟨rfl, rfl⟩ := IpNetwork.parts_of_new hn
      refine ⟨.subnet n, ?_, rfl⟩
      simp only [toRust, hn]
      rfl
    | port n p => exact ⟨.port ⟨n, p.toRust⟩, rfl, by simp only [ofRust, Protocol.ofRust_toRust]⟩
    | vector xs => exact hp.elim
    | set xs => exact hp.elim
    | table es => exact hp.elim
    | record fs => exact hp.elim
    | _ => exact ⟨_, rfl, rfl⟩
  | vector xs ih =>
    obtain ⟨-, hcs⟩ := forall_parts_vector.mp hc
    obtain ⟨-, hrs⟩ := forall_parts_vector.mp hr
    obtain ⟨-, hfs⟩ := forall_parts_vector.mp hf
    obtain ⟨vs, hvs⟩ := exists_forall₂ fun x hx => ih x hx (hcs x hx) (hrs x hx) (hfs x hx)
    exact ⟨_, same_vector hvs⟩
  | set xs ih =>
    obtain ⟨hasc, hcs⟩ := forall_parts_set.mp hc
    obtain ⟨-, hrs⟩ := forall_parts_set.mp hr
    obtain ⟨-, hfs⟩ := forall_parts_set.mp hf
    obtain ⟨vs, hvs⟩ := exists_forall₂ fun x hx => ih x hx (hcs x hx) (hrs x hx) (hfs x hx)
    have key := same_set hvs (pairwise_of_forall₂
      (fun _ _ _ _ hv hw hne heq => hne ((Same.equal_iff hw hv).mp heq)) hvs.flip hasc.distinct)
    rw [collectBy_of_ascending hasc] at key
    exact ⟨_, key⟩
  | table es ih =>
    obtain ⟨hasc, hcs⟩ := forall_parts_table.mp hc
    obtain ⟨-, hrs⟩ := forall_parts_table.mp hr
    obtain ⟨-, hfs⟩ := forall_parts_table.mp hf
    have each : ∀ e ∈ es, ∃ f, SameEntry f e := by
      intro e he
      obtain ⟨k, hk⟩ := (ih e he).1 (hcs e he).1 (hrs e he).1 (hfs e he).1
      obtain ⟨v, hv⟩ := (ih e he).2 (hcs e he).2 (hrs e he).2 (hfs e he).2
      exact ⟨(k, v), hk, hv⟩
    obtain ⟨fs, hfs⟩ := exists_forall₂ each
    have key := same_table hfs (pairwise_of_forall₂
      (fun _ _ _ _ he hf hne heq => hne ((Same.equal_iff hf.1 he.1).mp heq)) hfs.flip hasc.distinct)
    rw [collectBy_of_ascending hasc] at key
    exact ⟨_, key⟩
  | record fs ih => exact absurd rfl (hr (.record fs) (by simp [parts]) fs)

theorem toRust_leaf_ne_panic {p : Value} (hp : p.IsLeaf) : toRust p ≠ .panic := by
  cases p with
  | subnet a len => simp [toRust, Outcome.bind_eq_panic]
  | vector xs => exact hp.elim
  | set xs => exact hp.elim
  | table es => exact hp.elim
  | record fs => exact hp.elim
  | _ => simp [toRust]

theorem toRust_ne_panic (p : Value) : toRust p ≠ .panic := by
  induction p using induct with
  | leaf p hp => exact toRust_leaf_ne_panic hp
  | vector xs ih => simp [toRust_vector, Outcome.bind_eq_panic, Outcome.mapM_ne_panic ih]
  | set xs ih => simp [toRust_set, Outcome.bind_eq_panic, Outcome.mapM_ne_panic ih]
  | table es ih =>
    have hentry : ∀ e ∈ es, toRustEntry e ≠ .panic := fun e he => by
      simp [toRustEntry, Outcome.bind_eq_panic, (ih e he).1, (ih e he).2]
    simp [toRust_table, Outcome.bind_eq_panic, Outcome.mapM_ne_panic hentry]
  | record fs ih =>
    have hfield : ∀ f ∈ fs, (toRust ∘ Prod.snd) f ≠ .panic := ih
    simp [toRust_record, toRust_vector, Outcome.bind_eq_panic, Outcome.mapM_ne_panic hfield]

theorem exists_toRustEntry_ok {e : Value × Value} :
    (∃ f, toRustEntry e = .ok f) ↔ (∃ k, toRust e.1 = .ok k) ∧ ∃ v, toRust e.2 = .ok v := by
  simp only [toRustEntry_eq_ok, Prod.exists, exists_and_left, exists_and_right]

/-- An error comes up from any depth, and from oversized subnets alone. -/
theorem exists_toRust_ok {p : Value} : (∃ v, toRust p = .ok v) ↔ p.Fits := by
  induction p using induct with
  | leaf p hp =>
    rw [Fits, parts_leaf hp, List.forall_mem_singleton]
    cases p with
    | subnet a len => simp [toRust, ← exists_new_ok, Outcome.exists_bind_ok]
    | vector xs => exact hp.elim
    | set xs => exact hp.elim
    | table es => exact hp.elim
    | record fs => exact hp.elim
    | _ => simp [toRust, Oversized]
  | vector xs ih =>
    rw [toRust_vector, Outcome.exists_bind_ok, Outcome.exists_mapM_ok, Fits, forall_parts_vector]
    simp only [Oversized, not_false_eq_true, true_and]
    exact forall₂_congr ih
  | set xs ih =>
    rw [toRust_set, Outcome.exists_bind_ok, Outcome.exists_mapM_ok, Fits, forall_parts_set]
    simp only [Oversized, not_false_eq_true, true_and]
    exact forall₂_congr ih
  | table es ih =>
    rw [toRust_table, Outcome.exists_bind_ok, Outcome.exists_mapM_ok, Fits, forall_parts_table]
    simp only [Oversized, not_false_eq_true, true_and, exists_toRustEntry_ok]
    exact forall₂_congr fun e he => and_congr (ih e he).1 (ih e he).2
  | record fs ih =>
    rw [toRust_record, toRust_vector, Outcome.exists_bind_ok, Outcome.exists_mapM_ok, Fits,
      forall_parts_record, List.forall_mem_map]
    simp only [Oversized, not_false_eq_true, true_and]
    exact forall₂_congr ih

theorem exists_toRust_err {p : Value} : (∃ e, toRust p = .err e) ↔ ∃ w ∈ p.parts, w.Oversized := by
  have hiff : (∃ w ∈ p.parts, w.Oversized) ↔ ¬ p.Fits := by simp [Fits]
  rw [hiff, ← exists_toRust_ok]
  cases h : toRust p with
  | ok v => simp
  | err e => exact iff_of_true ⟨e, rfl⟩ (by simp)
  | panic => exact absurd h (toRust_ne_panic p)

theorem canonical_vector {xs : List Value} {v : ZWS.Value}
    (ih : ∀ x ∈ xs, ∀ {v}, toRust x = .ok v → v.Canonical) (h : toRust (.vector xs) = .ok v) :
    v.Canonical := by
  rw [toRust_vector] at h
  obtain ⟨vs, hvs, h⟩ := Outcome.bind_eq_ok.mp h
  obtain rfl := Outcome.ok.inj h
  refine ZWS.Value.forall_parts_vector.mpr ⟨trivial, fun v hv => ?_⟩
  obtain ⟨x, hx, hxv⟩ := Outcome.mem_of_mapM hvs hv
  exact ih x hx hxv

/-- What the library converts to is again a value of its own. -/
theorem canonical_of_toRust {p : Value} {v : ZWS.Value} (h : toRust p = .ok v) : v.Canonical := by
  induction p using induct generalizing v with
  | leaf p hp =>
    cases p with
    | subnet a len =>
      obtain ⟨n, -, h⟩ := Outcome.bind_eq_ok.mp h
      obtain rfl := Outcome.ok.inj h
      simp [ZWS.Value.Canonical, ZWS.Value.parts, ZWS.Value.NodeOrdered]
    | vector xs => exact hp.elim
    | set xs => exact hp.elim
    | table es => exact hp.elim
    | record fs => exact hp.elim
    | _ =>
      obtain rfl := Outcome.ok.inj h
      simp [ZWS.Value.Canonical, ZWS.Value.parts, ZWS.Value.NodeOrdered]
  | vector xs ih => exact canonical_vector ih h
  | set xs ih =>
    rw [toRust_set] at h
    obtain ⟨vs, hvs, h⟩ := Outcome.bind_eq_ok.mp h
    obtain rfl := Outcome.ok.inj h
    refine ZWS.Value.forall_parts_set.mpr ⟨collectBy_ascending keepNew_picks vs, fun v hv => ?_⟩
    obtain ⟨x, hx, hxv⟩ := Outcome.mem_of_mapM hvs (mem_collectBy keepNew_picks hv)
    exact ih x hx hxv
  | table es ih =>
    rw [toRust_table] at h
    obtain ⟨fs, hfs, h⟩ := Outcome.bind_eq_ok.mp h
    obtain rfl := Outcome.ok.inj h
    refine ZWS.Value.forall_parts_table.mpr ⟨collectBy_ascending keepNew_picks fs, fun f hf => ?_⟩
    obtain ⟨e, he, hef⟩ := Outcome.mem_of_mapM hfs (mem_collectBy keepNew_picks hf)
    obtain ⟨hk, hv⟩ := toRustEntry_eq_ok.mp hef
    exact ⟨(ih e he).1 hk, (ih e he).2 hv⟩
  | record fs ih =>
    rw [toRust_record] at h
    exact canonical_vector (List.forall_mem_map.mpr ih) h

/-- What Python gets has no records, and its sets and tables are trees again. -/
theorem ofRust_sound (v : ZWS.Value) : (ofRust v).Canonical ∧ (ofRust v).RecordFree := by
  induction v using ZWS.Value.induct with
  | leaf v hv =>
    cases v <;> first
      | (simp [ZWS.Value.discriminant] at hv; done)
      | simp [ofRust, Canonical, RecordFree, parts, NodeOrdered]
  | vector xs ih =>
    rw [ofRust, ofRustSeq_eq, Canonical, RecordFree, forall_parts_vector, forall_parts_vector,
      List.forall_mem_map, List.forall_mem_map]
    exact ⟨⟨trivial, fun x hx => (ih x hx).1⟩, by simp, fun x hx => (ih x hx).2⟩
  | set xs ih =>
    have hmem : ∀ x ∈ collectBy cmp keepNew (ofRustSeq xs), x.Canonical ∧ x.RecordFree := by
      intro x hx
      rw [ofRustSeq_eq] at hx
      obtain ⟨y, hy, rfl⟩ := List.mem_map.mp (mem_collectBy keepNew_picks hx)
      exact ih y hy
    rw [ofRust, Canonical, RecordFree, forall_parts_set, forall_parts_set]
    exact ⟨⟨collectBy_ascending keepNew_picks _, fun x hx => (hmem x hx).1⟩, by simp,
      fun x hx => (hmem x hx).2⟩
  | table es ih =>
    have hmem : ∀ e ∈ collectBy (byKey cmp) keepNew (ofRustEntries es),
        (e.1.Canonical ∧ e.1.RecordFree) ∧ e.2.Canonical ∧ e.2.RecordFree := by
      intro e he
      rw [ofRustEntries_eq] at he
      obtain ⟨f, hf, rfl⟩ := List.mem_map.mp (mem_collectBy keepNew_picks he)
      exact ih f hf
    rw [ofRust, Canonical, RecordFree, forall_parts_table, forall_parts_table]
    exact ⟨⟨collectBy_ascending keepNew_picks _, fun e he => ⟨(hmem e he).1.1, (hmem e he).2.1⟩⟩,
      by simp, fun e he => ⟨(hmem e he).1.2, (hmem e he).2.2⟩⟩

/-- A collection and what it is converted to hold the same elements and the same pairs. -/
def Kept : ZWS.Value → Value → Prop
  | .set xs, p => ∃ ps, p = .set ps ∧ ps.Perm (xs.map ofRust)
  | .table es, p => ∃ fs, p = .table fs ∧ fs.Perm (es.map fun e => (ofRust e.1, ofRust e.2))
  | _, _ => True

theorem kept_ofRust {v : ZWS.Value} (h : v.Canonical) : Kept v (ofRust v) := by
  cases v with
  | set xs =>
    obtain ⟨hasc, hxs⟩ := ZWS.Value.forall_parts_set.mp h
    refine ⟨_, rfl, ?_⟩
    rw [ofRustSeq_eq]
    refine collectBy_perm keepNew_picks (List.pairwise_map.mpr (hasc.distinct.imp_of_mem ?_))
    intro x y hx hy hne
    exact mt ((same_ofRust (hxs y hy)).equal_iff (same_ofRust (hxs x hx))).mpr hne
  | table es =>
    obtain ⟨hasc, hes⟩ := ZWS.Value.forall_parts_table.mp h
    refine ⟨_, rfl, ?_⟩
    rw [ofRustEntries_eq]
    refine collectBy_perm keepNew_picks (List.pairwise_map.mpr (hasc.distinct.imp_of_mem ?_))
    intro e f he hf hne
    exact mt ((same_ofRust (hes f hf).1).equal_iff (same_ofRust (hes e he).1)).mpr hne
  | _ => trivial

/-- The conversions are inverse to each other outside records and oversized subnets, on which
alone one of them fails. -/
theorem conversions_bijective :
    Set.BijOn ofRust {v | v.Canonical} {p | p.Canonical ∧ p.RecordFree ∧ p.Fits} ∧
    (∀ v : ZWS.Value, v.Canonical → toRust (ofRust v) = .ok v ∧ Kept v (ofRust v)) ∧
    ∀ p : Value, p.Canonical → p.RecordFree →
      ((∃ e, toRust p = .err e) ↔ ∃ w ∈ p.parts, w.Oversized) ∧
      ((¬ ∃ w ∈ p.parts, w.Oversized) → ∃ v, toRust p = .ok v ∧ ofRust v = p ∧ Kept v p) := by
  have hback : ∀ p : Value, p.Canonical → p.RecordFree → p.Fits →
      ∃ v : ZWS.Value, v.Canonical ∧ Same v p := by
    intro p hc hr hf
    obtain ⟨v, hv⟩ := exists_same hc hr hf
    exact ⟨v, canonical_of_toRust hv.1, hv⟩
  refine ⟨⟨?_, ?_, ?_⟩, fun v hv => ⟨(same_ofRust hv).1, kept_ofRust hv⟩,
    fun p hc hr => ⟨exists_toRust_err, ?_⟩⟩
  · intro v hv
    exact ⟨(ofRust_sound v).1, (ofRust_sound v).2, exists_toRust_ok.mp ⟨v, (same_ofRust hv).1⟩⟩
  · intro v hv w hw heq
    have h := (same_ofRust hv).1
    rw [heq, (same_ofRust hw).1] at h
    exact (Outcome.ok.inj h).symm
  · intro p hp
    obtain ⟨v, hv, hsame⟩ := hback p hp.1 hp.2.1 hp.2.2
    exact ⟨v, hv, hsame.2⟩
  · intro hf
    obtain ⟨v, hv, hok, rfl⟩ := hback p hc hr (by simpa [Fits] using hf)
    exact ⟨v, hok, rfl, kept_ofRust hv⟩

/-- Sets that the two sides sort differently, as the keys of a table. -/
def crossed : ZWS.Value :=
  .table [(.set [.string "dns", .port ⟨53, .tcp⟩, .port ⟨53, .unknown⟩], .count 1),
    (.set [.string "dns", .port ⟨53, .udp⟩], .count 2)]

example : ofRust crossed =
    .table [(.set [.port 53 .unknown, .port 53 .tcp, .string "dns"], .count 1),
      (.set [.port 53 .udp, .string "dns"], .count 2)] := rfl

theorem crossed_comesBack : toRust (ofRust crossed) = .ok crossed ∧ Kept crossed (ofRust crossed) :=
  conversions_bijective.2.1 crossed (by decide)

end Value

end Python

end ZWS
