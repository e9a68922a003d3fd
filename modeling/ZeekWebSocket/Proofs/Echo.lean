import ZeekWebSocket.Proofs.ValueRoundTrip
import ZeekWebSocket.Sanity.Equal

/-! What was received and can be sent back. The reader takes timespans in more units than
the writer has, so some that it accepts have no text of their own. -/

namespace ZWS

open Base

namespace Timespan

/-- Microseconds or milliseconds, neither whole seconds nor within `i64` nanoseconds. -/
def Fractured (n : Int64) (u : Unit) : Prop :=
  (u = .us ∧ ¬ 10 ^ 6 ∣ n.toInt ∧ ¬ FitsI64 (n.toInt * 10 ^ 3)) ∨
    (u = .ms ∧ ¬ 10 ^ 3 ∣ n.toInt ∧ ¬ FitsI64 (n.toInt * 10 ^ 6))

theorem ofFraction_nanoseconds {n : Int64} {per scale : ℤ} {hp : 0 < per} {hs : 0 < scale}
    {h : per * scale = 10 ^ 9} :
    (Duration.ofFraction n per scale hp hs h).nanoseconds = 0 ↔ per ∣ n.toInt := by
  simp only [Duration.ofFraction, mul_eq_zero, hs.ne', or_false]
  exact Int.dvd_iff_tmod_eq_zero.symm

theorem not_representable_of_duration {n : Int64} {u : Unit} {d : Duration}
    (h : u.duration n = .ok d) : ¬ Representable d ↔ Fractured n u := by
  unfold Representable Fractured
  cases u with
  | ns =>
    obtain rfl := Outcome.ok.inj h
    have hn := fitsI64_toInt n
    rw [Duration.ofNanoseconds, Duration.wholeNanoseconds_ofFraction]
    simp [hn]
  | us =>
    obtain rfl := Outcome.ok.inj h
    rw [Duration.ofMicroseconds, Duration.wholeNanoseconds_ofFraction, ofFraction_nanoseconds]
    simp
  | ms =>
    obtain rfl := Outcome.ok.inj h
    rw [Duration.ofMilliseconds, Duration.wholeNanoseconds_ofFraction, ofFraction_nanoseconds]
    simp
  | s =>
    obtain rfl := Outcome.ok.inj h
    simp [Duration.ofSeconds]
  | min =>
    obtain ⟨-, rfl⟩ := Duration.checkedSeconds_eq_some.mp (Outcome.expect_eq_ok.mp h)
    simp [Duration.ofSeconds]
  | h =>
    obtain ⟨-, rfl⟩ := Duration.checkedSeconds_eq_some.mp (Outcome.expect_eq_ok.mp h)
    simp [Duration.ofSeconds]
  | d =>
    obtain ⟨-, rfl⟩ := Duration.checkedSeconds_eq_some.mp (Outcome.expect_eq_ok.mp h)
    simp [Duration.ofSeconds]

end Timespan

namespace Value

/-- Some timespan inside the value has no text. -/
def Unwritable (v : Value) : Prop := ∃ d, .timespan d ∈ v.parts ∧ ¬ Timespan.Representable d

theorem unwritable_parts {xs : List Value} :
    (∃ d, .timespan d ∈ xs.flatMap parts ∧ ¬ Timespan.Representable d) ↔
      ∃ x ∈ xs, Unwritable x := by
  simp only [Unwritable, List.mem_flatMap]
  refine ⟨?_, ?_⟩
  · intro h
    obtain ⟨d, ⟨x, hx, hd⟩, hr⟩ := h
    exact ⟨x, hx, d, hd, hr⟩
  · intro h
    obtain ⟨x, hx, d, hd, hr⟩ := h
    exact ⟨d, ⟨x, hx, hd⟩, hr⟩

theorem unwritable_vector {xs : List Value} : Unwritable (.vector xs) ↔ ∃ x ∈ xs, Unwritable x := by
  rw [← unwritable_parts]
  simp [Unwritable, parts, partsSeq_eq]

theorem unwritable_set {xs : List Value} : Unwritable (.set xs) ↔ ∃ x ∈ xs, Unwritable x := by
  rw [← unwritable_parts]
  simp [Unwritable, parts, partsSeq_eq]

theorem unwritable_table {es : List (Value × Value)} :
    Unwritable (.table es) ↔ ∃ e ∈ es, Unwritable e.1 ∨ Unwritable e.2 := by
  simp only [Unwritable, parts, partsEntries_eq, List.mem_cons, reduceCtorEq, false_or,
    List.mem_flatMap, List.mem_append]
  refine ⟨?_, ?_⟩
  · rintro ⟨d, ⟨e, he, hd | hd⟩, hr⟩
    · exact ⟨e, he, Or.inl ⟨d, hd, hr⟩⟩
    · exact ⟨e, he, Or.inr ⟨d, hd, hr⟩⟩
  · rintro ⟨e, he, ⟨d, hd, hr⟩ | ⟨d, hd, hr⟩⟩
    · exact ⟨d, ⟨e, he, Or.inl hd⟩, hr⟩
    · exact ⟨d, ⟨e, he, Or.inr hd⟩, hr⟩

theorem exists_rel_of_forall₂ {α β : Type} {R : α → β → Prop} {xs : List α} {ys : List β}
    (h : List.Forall₂ R xs ys) {x : α} (hx : x ∈ xs) : ∃ y ∈ ys, R x y := by
  induction h with
  | nil => simp at hx
  | @cons a b xs ys hab _ ih =>
    rcases List.mem_cons.mp hx with rfl | hx
    · exact ⟨b, by simp, hab⟩
    · obtain ⟨y, hy, hxy⟩ := ih hx
      exact ⟨y, by simp [hy], hxy⟩

theorem split_of_forall₂ {α β : Type} {R : α → β → Prop} {pre : List α} {x : α} {post : List α}
    {ys : List β} (h : List.Forall₂ R (pre ++ x :: post) ys) :
    ∃ pre' y post', ys = pre' ++ y :: post' ∧ R x y ∧ List.Forall₂ R post post' := by
  induction pre generalizing ys with
  | nil =>
    obtain ⟨y, post', hxy, hpost, rfl⟩ := List.forall₂_cons_left_iff.mp h
    exact ⟨[], y, post', rfl, hxy, hpost⟩
  | cons a pre ih =>
    obtain ⟨b, ys, -, hys, rfl⟩ := List.forall₂_cons_left_iff.mp h
    obtain ⟨pre', y, post', rfl, hxy, hpost⟩ := ih hys
    exact ⟨b :: pre', y, post', rfl, hxy, hpost⟩

/-- Equal values can be written both or neither. -/
theorem Unwritable.of_equal {v w : Value} (hv : Unwritable v) (h : Equal v w) : Unwritable w := by
  induction v using induct generalizing w with
  | leaf v hleaf =>
    obtain ⟨d, hd, hr⟩ := hv
    rw [parts_leaf hleaf, List.mem_singleton] at hd
    subst hd
    obtain rfl := equal_timespan.mp h
    exact ⟨d, by simp [parts], hr⟩
  | vector xs ih =>
    obtain ⟨x, hx, hux⟩ := unwritable_vector.mp hv
    obtain ⟨ys, rfl, hys⟩ := equal_vector.mp h
    obtain ⟨y, hy, hxy⟩ := exists_rel_of_forall₂ hys hx
    exact unwritable_vector.mpr ⟨y, hy, ih x hx hux hxy⟩
  | set xs ih =>
    obtain ⟨x, hx, hux⟩ := unwritable_set.mp hv
    obtain ⟨ys, rfl, hys⟩ := equal_set.mp h
    obtain ⟨y, hy, hxy⟩ := exists_rel_of_forall₂ hys hx
    exact unwritable_set.mpr ⟨y, hy, ih x hx hux hxy⟩
  | table es ih =>
    obtain ⟨e, he, hue⟩ := unwritable_table.mp hv
    obtain ⟨fs, rfl, hfs⟩ := equal_table.mp h
    obtain ⟨f, hf, hk, hval⟩ := exists_rel_of_forall₂ hfs he
    refine unwritable_table.mpr ⟨f, hf, ?_⟩
    exact hue.imp (fun hu => (ih e he).1 hu hk) (fun hu => (ih e he).2 hu hval)

/-- A set keeps a timespan without a text if it ever saw one. -/
theorem unwritable_collect_set {vs : List Value} :
    Unwritable (.set (collectBy cmp keepOld vs)) ↔ ∃ v ∈ vs, Unwritable v := by
  have hp : ∀ a b : Value, keepOld a b = a ∨ keepOld a b = b := fun _ _ => Or.inl rfl
  rw [unwritable_set]
  refine ⟨?_, ?_⟩
  · intro h
    obtain ⟨v, hv, hu⟩ := h
    exact ⟨v, mem_collectBy hp hv, hu⟩
  · intro h
    obtain ⟨v, hv, hu⟩ := h
    obtain ⟨w, hw, hvw⟩ : ∃ w ∈ collectBy cmp keepOld vs, cmp v w = .eq := exists_mem_collectBy hp hv
    exact ⟨w, hw, hu.of_equal hvw⟩

/-- A table keeps one that it saw in a key, and one that it saw in the last value of a key. -/
theorem unwritable_collect_table {es : List (Value × Value)} :
    Unwritable (.table (collectBy (byKey cmp) keepNew es)) ↔
      (∃ e ∈ es, Unwritable e.1) ∨
        ∃ pre e post, es = pre ++ e :: post ∧ Unwritable e.2 ∧ ∀ f ∈ post, ¬ Equal e.1 f.1 := by
  have hp : ∀ a b : Value × Value, keepNew a b = a ∨ keepNew a b = b := fun _ _ => Or.inr rfl
  rw [unwritable_table]
  refine ⟨?_, ?_⟩
  · rintro ⟨e, he, hu | hu⟩
    · exact Or.inl ⟨e, mem_collectBy hp he, hu⟩
    · obtain ⟨pre, post, rfl, hpost⟩ := mem_collectBy_keepNew.mp he
      exact Or.inr ⟨pre, e, post, rfl, hu, hpost⟩
  · rintro (⟨e, he, hu⟩ | ⟨pre, e, post, rfl, hu, hpost⟩)
    · obtain ⟨f, hf, hef⟩ : ∃ f ∈ collectBy (byKey cmp) keepNew es, byKey cmp e f = .eq :=
        exists_mem_collectBy hp he
      exact ⟨f, hf, Or.inl (hu.of_equal hef)⟩
    · exact ⟨e, mem_collectBy_keepNew.mpr ⟨pre, post, rfl, hpost⟩, Or.inr hu⟩

/-- One half of a table entry: the key for `side` true, the value for `side` false. -/
def half (keyFirst side : Bool) (first second : Json) : Json :=
  if keyFirst = side then first else second

mutual
/-- `j` writes a timespan without a text of its own, and keeps it. -/
inductive Fractured (P : Platform) : Bool → Json → Prop
  | content {buf buf' j t c closed} : Opens buf j t buf' c closed → FracturedContent P buf' t c →
      Fractured P buf j
inductive FracturedContent (P : Platform) : Bool → Tag → Json → Prop
  | timespan {buf s n u} : Timespan.Written s n u → Timespan.Fractured n u →
      FracturedContent P buf .timespan (.str s)
  | seq {buf t js j} : t = .vector ∨ t = .set → j ∈ js → Fractured P buf j →
      FracturedContent P buf t (.arr js)
  | key {buf js j} : j ∈ js → FracturedEntry P buf true j → FracturedContent P buf .table (.arr js)
  | value {buf pre j post} : FracturedEntry P buf false j →
      (∀ j' ∈ post, ∀ e e', DenotesEntry P buf j e → DenotesEntry P buf j' e' → ¬ Equal e.1 e'.1) →
      FracturedContent P buf .table (.arr (pre ++ j :: post))
inductive FracturedEntry (P : Platform) : Bool → Bool → Json → Prop
  | half {buf side j first second keyFirst closed} : OpensEntry j first second keyFirst closed →
      Fractured P buf (half keyFirst side first second) → FracturedEntry P buf side j
end

/-- `j` is fractured exactly if the value read from it cannot be written. -/
structure Tells (P : Platform) (j : Json) : Prop where
  value : ∀ buf v, decode P buf j = .ok v → (Fractured P buf j ↔ Unwritable v)
  content : ∀ buf t v, decodeContent P buf t j = .ok v → (FracturedContent P buf t j ↔ Unwritable v)
  entry : ∀ buf e, decodeEntry P buf j = .ok e →
    (FracturedEntry P buf true j ↔ Unwritable e.1) ∧ (FracturedEntry P buf false j ↔ Unwritable e.2)

section
variable {P : Platform} {buf : Bool}

/-- The content that decided a value. -/
theorem decodeContent_of_opens {buf' : Bool} {j c : Json} {t : Tag} {closed : Prop} {v : Value}
    (ho : Opens buf j t buf' c closed) (h : decode P buf j = .ok v) :
    decodeContent P buf' t c = .ok v := by
  obtain ⟨tail, hc, heq⟩ := decode_opens P ho
  obtain ⟨w, hw, htail⟩ := Outcome.bind_eq_ok.mp (heq.symm.trans h)
  obtain ⟨-, rfl⟩ := (check_bind_ok hc).mp htail
  exact hw

/-- The halves that decided an entry. -/
theorem decode_of_opensEntry {j first second : Json} {keyFirst : Bool} {closed : Prop}
    {e : Value × Value} (ho : OpensEntry j first second keyFirst closed)
    (h : decodeEntry P buf j = .ok e) :
    ∃ a b, decode P buf first = .ok a ∧ decode P buf second = .ok b ∧ e = pairUp keyFirst a b := by
  obtain ⟨tail, hc, heq⟩ := decodeEntry_opens P buf ho
  obtain ⟨a, ha, h⟩ := Outcome.bind_eq_ok.mp (heq.symm.trans h)
  obtain ⟨b, hb, h⟩ := Outcome.bind_eq_ok.mp h
  obtain ⟨-, rfl⟩ := (check_bind_ok hc).mp h
  exact ⟨a, b, ha, hb, rfl⟩

theorem unwritable_leaf {v : Value} (h : v.discriminant < 12) :
    Unwritable v ↔ ∃ d, v = .timespan d ∧ ¬ Timespan.Representable d := by
  simp only [Unwritable, parts_leaf h, List.mem_singleton, eq_comm]

theorem fractured_iff {j : Json} (ih : ∀ c ∈ j.children, Tells P c) {v : Value}
    (h : decode P buf j = .ok v) : Fractured P buf j ↔ Unwritable v := by
  refine ⟨?_, ?_⟩
  · intro hsome
    obtain ⟨ho, hf⟩ := hsome
    exact ((ih _ ho.child).content _ _ v (decodeContent_of_opens ho h)).mp hf
  · intro hu
    rcases decode_cases P buf j with ⟨t, buf', c, closed, ho⟩ | hb | ⟨e, he⟩
    · exact .content ho (((ih c ho.child).content _ _ v (decodeContent_of_opens ho h)).mpr hu)
    · obtain rfl : Value.none = v := by simpa [decode_bare P hb] using h
      obtain ⟨d, hd, -⟩ := (unwritable_leaf (by decide)).mp hu
      cases hd
    · simp [he] at h

theorem fracturedEntry_iff {j : Json} (ih : ∀ c ∈ j.children, Tells P c) {e : Value × Value}
    (h : decodeEntry P buf j = .ok e) (side : Bool) :
    FracturedEntry P buf side j ↔ Unwritable (if side then e.1 else e.2) := by
  have hhalf : ∀ {first second : Json} {keyFirst : Bool} {closed : Prop},
      OpensEntry j first second keyFirst closed →
      (Fractured P buf (half keyFirst side first second) ↔
        Unwritable (if side then e.1 else e.2)) := by
    intro first second keyFirst closed ho
    obtain ⟨a, b, ha, hb, rfl⟩ := decode_of_opensEntry ho h
    have hfa := (ih _ ho.child.1).value buf a ha
    have hfb := (ih _ ho.child.2).value buf b hb
    cases keyFirst <;> cases side <;> simpa [half, pairUp]
  refine ⟨?_, ?_⟩
  · intro hsome
    obtain ⟨ho, hf⟩ := hsome
    exact (hhalf ho).mp hf
  · intro hu
    rcases decodeEntry_cases P buf j with
      ⟨first, second, kf, closed, ho⟩ | ⟨first, hcut⟩ | ⟨err, he⟩
    · exact .half ho ((hhalf ho).mpr hu)
    · obtain ⟨err, heq⟩ := decodeEntry_cut P buf hcut
      simp [heq, Outcome.bind_eq_ok] at h
    · simp [he] at h

theorem fractured_seq_iff {js : List Json} (ih : ∀ c ∈ js, Tells P c) {vs : List Value}
    (h : js.mapM (decode P buf) = .ok vs) :
    (∃ j ∈ js, Fractured P buf j) ↔ ∃ v ∈ vs, Unwritable v := by
  have hrel := Outcome.mapM_eq_ok.mp h
  refine ⟨?_, ?_⟩
  · intro hsome
    obtain ⟨j, hj, hf⟩ := hsome
    obtain ⟨v, hv, hjv⟩ := exists_rel_of_forall₂ hrel hj
    exact ⟨v, hv, ((ih j hj).value buf v hjv).mp hf⟩
  · intro hsome
    obtain ⟨v, hv, hu⟩ := hsome
    obtain ⟨j, hj, hjv⟩ := exists_rel_of_forall₂ hrel.flip hv
    exact ⟨j, hj, ((ih j hj).value buf v hjv).mpr hu⟩

theorem fractured_key_iff {js : List Json} (ih : ∀ c ∈ js, Tells P c) {es : List (Value × Value)}
    (h : js.mapM (decodeEntry P buf) = .ok es) :
    (∃ j ∈ js, FracturedEntry P buf true j) ↔ ∃ e ∈ es, Unwritable e.1 := by
  have hrel := Outcome.mapM_eq_ok.mp h
  refine ⟨?_, ?_⟩
  · intro hsome
    obtain ⟨j, hj, hf⟩ := hsome
    obtain ⟨e, he, hje⟩ := exists_rel_of_forall₂ hrel hj
    exact ⟨e, he, ((ih j hj).entry buf e hje).1.mp hf⟩
  · intro hsome
    obtain ⟨e, he, hu⟩ := hsome
    obtain ⟨j, hj, hje⟩ := exists_rel_of_forall₂ hrel.flip he
    exact ⟨j, hj, ((ih j hj).entry buf e hje).1.mpr hu⟩

theorem fractured_value_iff {js : List Json} (ih : ∀ c ∈ js, Tells P c) {es : List (Value × Value)}
    (h : js.mapM (decodeEntry P buf) = .ok es) :
    (∃ pre j post, js = pre ++ j :: post ∧ FracturedEntry P buf false j ∧
        ∀ j' ∈ post, ∀ e e', DenotesEntry P buf j e → DenotesEntry P buf j' e' →
          ¬ Equal e.1 e'.1) ↔
      ∃ pre e post, es = pre ++ e :: post ∧ Unwritable e.2 ∧ ∀ f ∈ post, ¬ Equal e.1 f.1 := by
  have hrel := Outcome.mapM_eq_ok.mp h
  refine ⟨?_, ?_⟩
  · intro hsome
    obtain ⟨pre, j, post, rfl, hf, hpost⟩ := hsome
    obtain ⟨pre', e, post', rfl, hje, hrest⟩ := split_of_forall₂ hrel
    refine ⟨pre', e, post', rfl, ((ih j (by simp)).entry buf e hje).2.mp hf, fun f hf => ?_⟩
    obtain ⟨j', hj', hjf⟩ := exists_rel_of_forall₂ hrest.flip hf
    exact hpost j' hj' e f (decodeEntry_eq_ok.mp hje) (decodeEntry_eq_ok.mp hjf)
  · intro hsome
    obtain ⟨pre, e, post, rfl, hu, hpost⟩ := hsome
    obtain ⟨pre', j, post', rfl, hje, hrest⟩ := split_of_forall₂ hrel.flip
    refine ⟨pre', j, post', rfl, ((ih j (by simp)).entry buf e hje).2.mpr hu, ?_⟩
    intro j' hj' d d' hd hd'
    obtain ⟨f, hf, hjf⟩ := exists_rel_of_forall₂ hrest.flip hj'
    obtain rfl : e = d := Outcome.ok.inj (hje.symm.trans (decodeEntry_eq_ok.mpr hd))
    obtain rfl : f = d' := Outcome.ok.inj (hjf.symm.trans (decodeEntry_eq_ok.mpr hd'))
    exact hpost f hf

theorem decodeLeaf_eq_timespan {t : Tag} {j : Json} {d : Duration}
    (h : decodeLeaf P t j = .ok (.timespan d)) :
    t = .timespan ∧ ∃ s, j = .str s ∧ Timespan.deserialize s = .ok d := by
  cases j with
  | str s =>
    cases t <;> simp [decodeLeaf, Outcome.bind_eq_ok] at h
    exact ⟨rfl, s, rfl, h⟩
  | num n =>
    cases n <;> cases t <;> simp [decodeLeaf] at h
    split at h <;> simp at h
  | _ => cases t <;> simp [decodeLeaf] at h

theorem fracturedContent_leaf {t : Tag} {j : Json} {v : Value} (h : decodeLeaf P t j = .ok v) :
    FracturedContent P buf t j ↔ Unwritable v := by
  refine ⟨?_, ?_⟩
  · intro hf
    cases hf with
    | timespan hw hfr =>
      obtain ⟨d, hd, hv⟩ := Outcome.bind_eq_ok.mp h
      obtain rfl := Outcome.ok.inj hv
      rw [Timespan.deserialize_of_written hw] at hd
      exact ⟨d, by simp [parts], (Timespan.not_representable_of_duration hd).mpr hfr⟩
    | seq ht => rcases ht with rfl | rfl <;> simp [decodeLeaf] at h
    | key => simp [decodeLeaf] at h
    | value => simp [decodeLeaf] at h
  · intro hu
    obtain ⟨d, rfl, hr⟩ := (unwritable_leaf (decodeLeaf_discriminant h)).mp hu
    obtain ⟨rfl, s, rfl, hs⟩ := decodeLeaf_eq_timespan h
    obtain ⟨n, u, hw, hd⟩ := Timespan.deserialize_eq_ok.mp hs
    exact .timespan hw ((Timespan.not_representable_of_duration hd).mp hr)

theorem fracturedContent_seq {t : Tag} {js : List Json} (ht : t = .vector ∨ t = .set) :
    FracturedContent P buf t (.arr js) ↔ ∃ j ∈ js, Fractured P buf j := by
  refine ⟨?_, ?_⟩
  · intro h
    cases h with
    | seq _ hj hf => exact ⟨_, hj, hf⟩
    | _ => simp at ht
  · intro h
    obtain ⟨j, hj, hf⟩ := h
    exact .seq ht hj hf

theorem fracturedContent_iff {j : Json} (ih : ∀ c ∈ j.children, Tells P c) {t : Tag} {v : Value}
    (h : decodeContent P buf t j = .ok v) : FracturedContent P buf t j ↔ Unwritable v := by
  rcases decodeContent_cases P buf t j with ⟨rfl, js, rfl⟩ | ⟨rfl, js, rfl⟩ | ⟨rfl, js, rfl⟩ | heq
  · rw [decodeContent_vector] at h
    obtain ⟨vs, hvs, hv⟩ := Outcome.bind_eq_ok.mp h
    obtain rfl := Outcome.ok.inj hv
    rw [unwritable_vector, ← fractured_seq_iff ih hvs]
    exact fracturedContent_seq (.inl rfl)
  · rw [decodeContent_set] at h
    obtain ⟨vs, hvs, hv⟩ := Outcome.bind_eq_ok.mp h
    obtain rfl := Outcome.ok.inj hv
    rw [unwritable_collect_set, ← fractured_seq_iff ih hvs]
    exact fracturedContent_seq (.inr rfl)
  · rw [decodeContent_table] at h
    obtain ⟨es, hes, hv⟩ := Outcome.bind_eq_ok.mp h
    obtain rfl := Outcome.ok.inj hv
    rw [unwritable_collect_table, ← fractured_key_iff ih hes, ← fractured_value_iff ih hes]
    refine ⟨?_, ?_⟩
    · intro hf
      cases hf with
      | seq ht => simp at ht
      | key hj hf => exact Or.inl ⟨_, hj, hf⟩
      | value hf hpost => exact Or.inr ⟨_, _, _, rfl, hf, hpost⟩
    · rintro (⟨j, hj, hf⟩ | ⟨pre, j, post, rfl, hf, hpost⟩)
      · exact .key hj hf
      · exact .value hf hpost
  · exact fracturedContent_leaf (heq ▸ h)

theorem tells (P : Platform) (j : Json) : Tells P j := by
  induction j using Json.induct with
  | node j ih =>
    exact ⟨fun _ _ => fractured_iff ih, fun _ _ _ => fracturedContent_iff ih,
      fun _ _ h => ⟨fracturedEntry_iff ih h true, fracturedEntry_iff ih h false⟩⟩

/-- What every part of a received value is: in order, finite, and at the local offset. -/
def Received (o : UtcOffset) : Value → Prop
  | .real x => x.isFinite
  | .timestamp t => t.offset = o
  | .set xs => Ascending cmp xs
  | .table es => Ascending (byKey cmp) es
  | _ => True

theorem received_leaf {o : UtcOffset} (ho : P.localOffset = some o) {t : Tag} {c : Json} {v : Value}
    (h : decodeLeaf P t c = .ok v) : Received o v := by
  have hd := decodeLeaf_discriminant h
  cases v with
  | real x =>
    cases c with
    | num n =>
      cases n with
      | posInt n =>
        have hn := n.toNat_lt
        cases t <;> simp only [decodeLeaf, Outcome.ok.injEq, reduceCtorEq, real.injEq] at h
        · split at h <;> simp at h
        · exact h ▸ F64.ofInt_isFinite (by omega)
      | negInt n hneg =>
        have hn := n.le_toInt
        cases t <;> simp only [decodeLeaf, Outcome.ok.injEq, reduceCtorEq, real.injEq] at h
        exact h ▸ F64.ofInt_isFinite (by omega)
      | float y hy =>
        cases t <;> simp only [decodeLeaf, Outcome.ok.injEq, reduceCtorEq, real.injEq] at h
        exact h ▸ hy
    | str s => cases t <;> simp [decodeLeaf, Outcome.bind_eq_ok] at h
    | _ => cases t <;> simp [decodeLeaf] at h
  | timestamp t' =>
    cases c with
    | str s =>
      cases t <;> simp [decodeLeaf, Outcome.bind_eq_ok] at h
      simp only [Timestamp.deserialize, ho, Outcome.bind_eq_ok, Outcome.ofOption_eq_ok,
        Option.some.injEq, Outcome.pure_def, Outcome.ok.injEq] at h
      obtain ⟨time, -, o', rfl, rfl⟩ := h
      rfl
    | num n =>
      cases n <;> cases t <;> simp [decodeLeaf] at h
      split at h <;> simp at h
    | _ => cases t <;> simp [decodeLeaf] at h
  | set xs => simp [discriminant] at hd
  | table es => simp [discriminant] at hd
  | _ => trivial

theorem received_of_decode {o : UtcOffset} (ho : P.localOffset = some o) {j : Json} {v : Value}
    (h : decode P buf j = .ok v) : ∀ w ∈ v.parts, Received o w :=
  forall_parts_of_denotes (fun _ _ _ => received_leaf ho) (fun _ => trivial)
    (fun vs => collectBy_ascending (fun _ _ => Or.inl rfl) vs)
    (fun es => collectBy_ascending (fun _ _ => Or.inr rfl) es) (decode_eq_ok.mp h)

theorem Received.atOffset {o : UtcOffset} {t : OffsetDateTime} (h : Received o (.timestamp t)) :
    t.checkedToOffset o = some t := by
  obtain rfl : t.offset = o := h
  exact t.checkedToOffset_self

/-- A received value is what it is at the local offset. -/
theorem atOffset_of_received {o : UtcOffset} {v : Value} (h : ∀ w ∈ v.parts, Received o w) :
    v.atOffset o = v := by
  refine mapTimes_eq_self ?_
  rintro w hw t rfl
  rw [(h _ hw).atOffset, Option.getD_some]

theorem ready_of_received {o : UtcOffset} {v : Value} (h : ∀ w ∈ v.parts, Received o w)
    (hu : ¬ Unwritable v) : ∀ w ∈ v.parts, Ready o w := by
  intro w hw
  have hr := h w hw
  cases w with
  | real x => exact hr
  | timespan d => exact not_not.mp fun hd => hu ⟨d, hw, hd⟩
  | timestamp t => rw [Ready, hr.atOffset]; rfl
  | set xs => exact hr
  | table es => exact hr
  | _ => trivial

end

/-- What was received can be sent back, and comes back the same, exactly if no timespan that was
kept is fractured. -/
theorem echo_iff (P : Platform) (hP : P.RoundTrips) (o : UtcOffset) (ho : P.localOffset = some o)
    (buf : Bool) (j : Json) (v : Value) (hj : decode P buf j = .ok v) :
    (∃ j', encode P v = .ok j' ∧ ∀ buf', decode P buf' j' = .ok v) ↔ ¬ Fractured P buf j := by
  rw [(tells P j).value buf v hj]
  have hrec := received_of_decode ho hj
  refine ⟨?_, ?_⟩
  · rintro ⟨j', hj', -⟩ ⟨d, hd, hr⟩
    exact hr (exists_encode_iff.mp ⟨j', hj'⟩ _ hd)
  · intro hu
    obtain ⟨j', hj', hd⟩ := decode_encode hP ho (ready_of_received hrec hu)
    rw [atOffset_of_received hrec] at hd
    exact ⟨j', hj', hd⟩

/-- A ping with a timespan in whole microseconds, at the end of `i64`. -/
def microsecondsJson : Json := tagged .timespan (.str "9223372036854775807us")

theorem microseconds_no_echo :
    ¬ ∀ (P : Platform) (o : UtcOffset) (j : Json) (v : Value), P.RoundTrips → P.localOffset = some o →
      decode P false j = .ok v → ∃ j', encode P v = .ok j' ∧ decode P false j' = .ok v := by
  intro h
  obtain ⟨j', hj', -⟩ := h Sample.utcPlatform Sample.utc microsecondsJson
    (.timespan (.ofMicroseconds 9223372036854775807)) Sample.utcPlatform_roundTrips rfl rfl
  have herr : encode Sample.utcPlatform (.timespan (.ofMicroseconds 9223372036854775807)) =
      .err (.notRepresentable (.ofMicroseconds 9223372036854775807)) := rfl
  simp [herr] at hj'

/-- A table that gives a fractured timespan to a key and then another one. -/
def overwrittenJson : Json :=
  tagged .table (.arr
    [.obj [("key", tagged .port (.str "+22/tcp")), ("value", microsecondsJson)],
      .arr [tagged .port (.str "022/tcp"), tagged .timespan (.str "-3min")]])

def overwritten : Value := .table [(.port ⟨22, .tcp⟩, .timespan (.ofSeconds (-180)))]

theorem decode_overwrittenJson : decode Sample.utcPlatform false overwrittenJson = .ok overwritten := by
  have hfirst : decodeEntry Sample.utcPlatform false
      (.obj [("key", tagged .port (.str "+22/tcp")), ("value", microsecondsJson)]) =
      .ok (.port ⟨22, .tcp⟩, .timespan (.ofMicroseconds 9223372036854775807)) := rfl
  have hsecond : decodeEntry Sample.utcPlatform false
      (.arr [tagged .port (.str "022/tcp"), tagged .timespan (.str "-3min")]) =
      .ok (.port ⟨22, .tcp⟩, .timespan (.ofSeconds (-180))) := rfl
  have hlast : ∀ (k : Port) (v w : Value), collectBy (byKey cmp) keepNew [(.port k, v), (.port k, w)] =
      [(.port k, w)] := by
    intro k v w
    have hk : byKey cmp (.port k, w) (.port k, v) = .eq := Equal.refl (.port k)
    simp [collectBy, insertBy, hk, keepNew]
  rw [overwrittenJson, decode_tagged, decodeContent_table, List.mapM_cons, hfirst, List.mapM_cons,
    hsecond]
  simp [hlast, overwritten]

theorem overwrittenJson_echo :
    (∃ j', encode Sample.utcPlatform overwritten = .ok j' ∧
      ∀ buf', decode Sample.utcPlatform buf' j' = .ok overwritten) ↔
    ¬ Fractured Sample.utcPlatform false overwrittenJson :=
  echo_iff Sample.utcPlatform Sample.utcPlatform_roundTrips Sample.utc rfl false overwrittenJson
    overwritten decode_overwrittenJson

end Value

end ZWS
