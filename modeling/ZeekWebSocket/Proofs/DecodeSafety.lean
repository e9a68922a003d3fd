import ZeekWebSocket.Sanity.Format
import ZeekWebSocket.Sanity.Message
import ZeekWebSocket.Sanity.Sample
import ZeekWebSocket.Sanity.Timespan

/-! When reading untrusted input panics. Slicing and every short form are safe; only a count
of minutes, hours or days whose seconds leave `i64` is not, wherever the reader gets to it. -/

namespace ZWS

open Base

namespace Value

mutual
/-- The reader of `j` comes to a timespan whose seconds leave `i64`, past nothing that would have
stopped it. -/
inductive Overflows (P : Platform) : Bool → Json → Prop
  | content {buf buf' j t c closed} : Opens buf j t buf' c closed → OverflowsContent P buf' t c →
      Overflows P buf j
inductive OverflowsContent (P : Platform) : Bool → Tag → Json → Prop
  | timespan {buf s n u} : Timespan.Written s n u → ¬ FitsI64 (n.toInt * u.factor) →
      OverflowsContent P buf .timespan (.str s)
  | seq {buf t pre j post} : t = .vector ∨ t = .set → (∀ x ∈ pre, ∃ v, Denotes P buf x v) →
      Overflows P buf j → OverflowsContent P buf t (.arr (pre ++ j :: post))
  | entries {buf pre j post} : (∀ x ∈ pre, ∃ e, DenotesEntry P buf x e) → OverflowsEntry P buf j →
      OverflowsContent P buf .table (.arr (pre ++ j :: post))
inductive OverflowsEntry (P : Platform) : Bool → Json → Prop
  | first {buf j first second keyFirst closed} : OpensEntry j first second keyFirst closed →
      Overflows P buf first → OverflowsEntry P buf j
  | second {buf j first second keyFirst closed a} : OpensEntry j first second keyFirst closed →
      Denotes P buf first a → Overflows P buf second → OverflowsEntry P buf j
  | cut {buf j first} : CutEntry j first → Overflows P buf first → OverflowsEntry P buf j
end

/-- The reader panics on `j`, as a value, as content or as a table entry, where it overflows. -/
structure Panics (P : Platform) (j : Json) : Prop where
  value : ∀ buf, decode P buf j = .panic ↔ Overflows P buf j
  content : ∀ buf t, decodeContent P buf t j = .panic ↔ OverflowsContent P buf t j
  entry : ∀ buf, decodeEntry P buf j = .panic ↔ OverflowsEntry P buf j

section
variable {P : Platform} {buf : Bool}

theorem timestamp_ne_panic (s : String) : Timestamp.deserialize P s ≠ .panic := by
  simp [Timestamp.deserialize, Outcome.bind_eq_panic]

theorem decodeLeaf_ne_panic {t : Tag} (ht : t ≠ .timespan) (c : Json) : decodeLeaf P t c ≠ .panic := by
  cases c with
  | str s => cases t <;> simp_all [decodeLeaf, Outcome.bind_eq_panic, timestamp_ne_panic]
  | num n =>
    cases n with
    | posInt n => cases t <;> simp [decodeLeaf]; split <;> simp
    | negInt n h => cases t <;> simp [decodeLeaf]
    | float x h => cases t <;> simp [decodeLeaf]
  | _ => cases t <;> simp [decodeLeaf]

theorem decodeLeaf_eq_panic {t : Tag} {c : Json} :
    decodeLeaf P t c = .panic ↔
      t = .timespan ∧ ∃ s n u, c = .str s ∧ Timespan.Written s n u ∧
        ¬ FitsI64 (n.toInt * u.factor) := by
  refine ⟨?_, ?_⟩
  · intro h
    obtain rfl : t = .timespan := by
      by_contra ht
      exact decodeLeaf_ne_panic ht c h
    cases c with
    | str s =>
      rw [decodeLeaf, Outcome.bind_eq_panic] at h
      rcases h with h | ⟨d, -, h⟩
      · obtain ⟨n, u, hw, hd⟩ := Timespan.deserialize_eq_panic.mp h
        exact ⟨rfl, s, n, u, rfl, hw, Timespan.Unit.duration_eq_panic.mp hd⟩
      · simp at h
    | _ => simp [decodeLeaf] at h
  · intro hsome
    obtain ⟨rfl, s, n, u, rfl, hw, hov⟩ := hsome
    rw [decodeLeaf, Outcome.bind_eq_panic]
    exact Or.inl (Timespan.deserialize_eq_panic.mpr ⟨n, u, hw, Timespan.Unit.duration_eq_panic.mpr hov⟩)

theorem check_bind_ne_panic {α : Type} {tail : Outcome DecodeError Unit} {closed : Prop} (a : α)
    (h : Check tail closed) : (tail >>= fun _ => (.ok a : Outcome DecodeError α)) ≠ .panic := by
  simp [Outcome.bind_eq_panic, h.1]

theorem decode_eq_panic_iff {j : Json} (ih : ∀ c ∈ j.children, Panics P c) :
    decode P buf j = .panic ↔ Overflows P buf j := by
  refine ⟨?_, ?_⟩
  · intro h
    rcases decode_cases P buf j with ⟨t, buf', c, closed, ho⟩ | hb | ⟨e, he⟩
    · obtain ⟨tail, hc, heq⟩ := decode_opens P ho
      rw [heq, Outcome.bind_eq_panic] at h
      rcases h with h | ⟨v, -, h⟩
      · exact .content ho (((ih c ho.child).content _ _).mp h)
      · exact absurd h (check_bind_ne_panic v hc)
    · simp [decode_bare P hb] at h
    · simp [he] at h
  · intro hsome
    obtain ⟨ho, hover⟩ := hsome
    obtain ⟨tail, hc, heq⟩ := decode_opens P ho
    rw [heq, ((ih _ ho.child).content _ _).mpr hover, Outcome.panic_bind]

theorem mapM_decode_eq_panic {js : List Json} (ih : ∀ c ∈ js, Panics P c) :
    js.mapM (decode P buf) = .panic ↔ ∃ pre j post, js = pre ++ j :: post ∧
      (∀ x ∈ pre, ∃ v, Denotes P buf x v) ∧ Overflows P buf j := by
  rw [Outcome.mapM_eq_panic]
  simp only [decode_eq_ok]
  refine ⟨?_, ?_⟩
  · intro h
    obtain ⟨pre, j, post, rfl, hpre, hj⟩ := h
    exact ⟨pre, j, post, rfl, hpre, ((ih j (by simp)).value buf).mp hj⟩
  · intro h
    obtain ⟨pre, j, post, rfl, hpre, hj⟩ := h
    exact ⟨pre, j, post, rfl, hpre, ((ih j (by simp)).value buf).mpr hj⟩

theorem mapM_decodeEntry_eq_panic {js : List Json} (ih : ∀ c ∈ js, Panics P c) :
    js.mapM (decodeEntry P buf) = .panic ↔ ∃ pre j post, js = pre ++ j :: post ∧
      (∀ x ∈ pre, ∃ e, DenotesEntry P buf x e) ∧ OverflowsEntry P buf j := by
  rw [Outcome.mapM_eq_panic]
  simp only [decodeEntry_eq_ok]
  refine ⟨?_, ?_⟩
  · intro h
    obtain ⟨pre, j, post, rfl, hpre, hj⟩ := h
    exact ⟨pre, j, post, rfl, hpre, ((ih j (by simp)).entry buf).mp hj⟩
  · intro h
    obtain ⟨pre, j, post, rfl, hpre, hj⟩ := h
    exact ⟨pre, j, post, rfl, hpre, ((ih j (by simp)).entry buf).mpr hj⟩

theorem decodeContent_eq_panic_iff {j : Json} (ih : ∀ c ∈ j.children, Panics P c) {t : Tag} :
    decodeContent P buf t j = .panic ↔ OverflowsContent P buf t j := by
  refine ⟨?_, ?_⟩
  · intro h
    rcases decodeContent_cases P buf t j with ⟨rfl, js, rfl⟩ | ⟨rfl, js, rfl⟩ | ⟨rfl, js, rfl⟩ | heq
    · rw [decodeContent_vector, Outcome.bind_eq_panic] at h
      obtain ⟨pre, x, post, rfl, hpre, hx⟩ := (mapM_decode_eq_panic ih).mp (h.resolve_right (by simp))
      exact .seq (Or.inl rfl) hpre hx
    · rw [decodeContent_set, Outcome.bind_eq_panic] at h
      obtain ⟨pre, x, post, rfl, hpre, hx⟩ := (mapM_decode_eq_panic ih).mp (h.resolve_right (by simp))
      exact .seq (Or.inr rfl) hpre hx
    · rw [decodeContent_table, Outcome.bind_eq_panic] at h
      obtain ⟨pre, x, post, rfl, hpre, hx⟩ :=
        (mapM_decodeEntry_eq_panic ih).mp (h.resolve_right (by simp))
      exact .entries hpre hx
    · obtain ⟨rfl, s, n, u, rfl, hw, hov⟩ := decodeLeaf_eq_panic.mp (heq ▸ h)
      exact .timespan hw hov
  · intro h
    cases h with
    | timespan hw hov =>
      exact (decodeLeaf_eq_panic (P := P)).mpr ⟨rfl, _, _, _, rfl, hw, hov⟩
    | @seq _ _ pre x post ht hpre hx =>
      have hp : (pre ++ x :: post).mapM (decode P buf) = .panic :=
        (mapM_decode_eq_panic ih).mpr ⟨pre, x, post, rfl, hpre, hx⟩
      rcases ht with rfl | rfl
      · rw [decodeContent_vector, hp, Outcome.panic_bind]
      · rw [decodeContent_set, hp, Outcome.panic_bind]
    | @entries _ pre x post hpre hx =>
      have hp : (pre ++ x :: post).mapM (decodeEntry P buf) = .panic :=
        (mapM_decodeEntry_eq_panic ih).mpr ⟨pre, x, post, rfl, hpre, hx⟩
      rw [decodeContent_table, hp, Outcome.panic_bind]

theorem decodeEntry_eq_panic_iff {j : Json} (ih : ∀ c ∈ j.children, Panics P c) :
    decodeEntry P buf j = .panic ↔ OverflowsEntry P buf j := by
  refine ⟨?_, ?_⟩
  · intro h
    rcases decodeEntry_cases P buf j with
      ⟨first, second, kf, closed, ho⟩ | ⟨first, hcut⟩ | ⟨err, he⟩
    · obtain ⟨tail, hc, heq⟩ := decodeEntry_opens P buf ho
      rw [heq, Outcome.bind_eq_panic] at h
      rcases h with h | ⟨a, ha, h⟩
      · exact .first ho (((ih _ ho.child.1).value _).mp h)
      · rcases Outcome.bind_eq_panic.mp h with h | ⟨b, -, h⟩
        · exact .second ho (decode_eq_ok.mp ha) (((ih _ ho.child.2).value _).mp h)
        · exact absurd h (check_bind_ne_panic _ hc)
    · obtain ⟨err, heq⟩ := decodeEntry_cut P buf hcut
      rw [heq, Outcome.bind_eq_panic] at h
      rcases h with h | ⟨a, -, h⟩
      · exact .cut hcut (((ih _ hcut.child).value _).mp h)
      · simp at h
    · simp [he] at h
  · intro h
    cases h with
    | first ho hover =>
      obtain ⟨tail, hc, heq⟩ := decodeEntry_opens P buf ho
      rw [heq, ((ih _ ho.child.1).value _).mpr hover, Outcome.panic_bind]
    | second ho ha hover =>
      obtain ⟨tail, hc, heq⟩ := decodeEntry_opens P buf ho
      rw [heq, decode_eq_ok.mpr ha, Outcome.ok_bind, ((ih _ ho.child.2).value _).mpr hover,
        Outcome.panic_bind]
    | cut hcut hover =>
      obtain ⟨err, heq⟩ := decodeEntry_cut P buf hcut
      rw [heq, ((ih _ hcut.child).value _).mpr hover, Outcome.panic_bind]

theorem panics (P : Platform) (j : Json) : Panics P j := by
  induction j using Json.induct with
  | node j ih =>
    exact ⟨fun _ => decode_eq_panic_iff ih, fun _ _ => decodeContent_eq_panic_iff ih,
      fun _ => decodeEntry_eq_panic_iff ih⟩

theorem decode_eq_panic {j : Json} : decode P buf j = .panic ↔ Overflows P buf j :=
  (panics P j).value buf

end

end Value

namespace Message

/-- A data message whose payload overflows. -/
def Overflows (P : Platform) (j : Json) : Prop :=
  ∃ fs, j = .obj fs ∧ Once typeKey (.str "data-message") fs ∧
    (∃ topic, Once "topic" (.str topic) fs) ∧ Value.Overflows P true (.obj fs)

theorem decode_eq_panic {P : Platform} {j : Json} : decode P j = .panic ↔ Overflows P j := by
  refine ⟨?_, ?_⟩
  · intro h
    cases j with
    | obj fs =>
      obtain ⟨htype, htopic⟩ := decode_eq_panic_fields P h
      obtain ⟨topic, heq⟩ := decode_dataMessage_object P htype htopic
      rw [heq, Outcome.bind_eq_panic] at h
      exact ⟨fs, rfl, htype, htopic, Value.decode_eq_panic.mp (h.resolve_right (by simp))⟩
    | arr js => exact absurd h (decode_arr_ne_panic P js)
    | _ => simp [decode] at h
  · intro hsome
    obtain ⟨fs, rfl, htype, htopic, hover⟩ := hsome
    obtain ⟨topic, heq⟩ := decode_dataMessage_object P htype htopic
    rw [heq, Value.decode_eq_panic.mpr hover, Outcome.panic_bind]

end Message

/-- Reading a JSON tree, as a value or as a message, returns exactly if no timespan overflows. -/
theorem decode_returns_iff (P : Platform) (j : Json) :
    (∀ buf, Value.decode P buf j ≠ .panic ↔ ¬ Value.Overflows P buf j) ∧
      (Message.decode P j ≠ .panic ↔ ¬ Message.Overflows P j) :=
  ⟨fun _ => not_congr Value.decode_eq_panic, not_congr Message.decode_eq_panic⟩

/-- A data message with a count of minutes that fits `i64` while its seconds do not. -/
def minutesMessage : Json :=
  .obj [(typeKey, .str "data-message"), ("topic", .str "/ping"), (tagKey, .str "timespan"),
    (contentKey, .str "9223372036854775807min")]

theorem minutesMessage_panics :
    ¬ ∀ (P : Platform) (j : Json), Value.decode P false j ≠ .panic ∧ Message.decode P j ≠ .panic := by
  intro h
  exact (h Sample.utcPlatform minutesMessage).2 rfl

end ZWS
