import ZeekWebSocket.Sanity.Parts
import ZeekWebSocket.Sanity.Reader

/-! The reader accepts what the wire format says, as the value it says, and nothing else. -/

namespace ZWS

open Base

namespace Value

section
variable {P : Platform} {buf : Bool}

theorem decodeSeq_eq (js : List Json) : decodeSeq P buf js = js.mapM (decode P buf) := by
  induction js with
  | nil => rfl
  | cons j js ih => rw [decodeSeq, ih, List.mapM_cons]

theorem decodeEntries_eq (js : List Json) : decodeEntries P buf js = js.mapM (decodeEntry P buf) := by
  induction js with
  | nil => rfl
  | cons j js ih => rw [decodeEntries, ih, List.mapM_cons]

theorem denotesSeq_iff {js : List Json} {vs : List Value} :
    DenotesSeq P buf js vs ↔ List.Forall₂ (Denotes P buf) js vs := by
  induction js generalizing vs with
  | nil =>
    rw [List.forall₂_nil_left_iff]
    exact ⟨fun h => by cases h; rfl, fun h => h ▸ .nil⟩
  | cons j js ih =>
    rw [List.forall₂_cons_left_iff]
    refine ⟨?_, ?_⟩
    · intro h
      cases h with
      | cons h hs => exact ⟨_, _, h, ih.mp hs, rfl⟩
    · intro hsome
      obtain ⟨v, vs, h, hs, rfl⟩ := hsome
      exact .cons h (ih.mpr hs)

theorem denotesEntries_iff {js : List Json} {es : List (Value × Value)} :
    DenotesEntries P buf js es ↔ List.Forall₂ (DenotesEntry P buf) js es := by
  induction js generalizing es with
  | nil =>
    rw [List.forall₂_nil_left_iff]
    exact ⟨fun h => by cases h; rfl, fun h => h ▸ .nil⟩
  | cons j js ih =>
    rw [List.forall₂_cons_left_iff]
    refine ⟨?_, ?_⟩
    · intro h
      cases h with
      | cons h hs => exact ⟨_, _, h, ih.mp hs, rfl⟩
    · intro hsome
      obtain ⟨e, es, h, hs, rfl⟩ := hsome
      exact .cons h (ih.mpr hs)

theorem decodeContent_vector (js : List Json) :
    decodeContent P buf .vector (.arr js) = js.mapM (decode P buf) >>= fun vs => .ok (.vector vs) := by
  rw [decodeContent, decodeSeq_eq]
  rfl

theorem decodeContent_set (js : List Json) :
    decodeContent P buf .set (.arr js) =
      js.mapM (decode P buf) >>= fun vs => .ok (.set (collectBy cmp keepOld vs)) := by
  rw [decodeContent, decodeSeq_eq]
  rfl

theorem decodeContent_table (js : List Json) :
    decodeContent P buf .table (.arr js) =
      js.mapM (decodeEntry P buf) >>= fun es => .ok (.table (collectBy (byKey cmp) keepNew es)) := by
  rw [decodeContent, decodeEntries_eq]
  rfl

/-- Content is a sequence of values, a sequence of entries, or a leaf. -/
theorem decodeContent_cases (P : Platform) (buf : Bool) (t : Tag) (j : Json) :
    (t = .vector ∧ ∃ js, j = .arr js) ∨ (t = .set ∧ ∃ js, j = .arr js) ∨
      (t = .table ∧ ∃ js, j = .arr js) ∨ decodeContent P buf t j = decodeLeaf P t j := by
  cases j with
  | arr js => cases t <;> first | (right; right; right; rfl) | simp
  | _ => exact Or.inr (Or.inr (Or.inr rfl))

theorem decodeContent_of_leaf {t : Tag} {j : Json} {v : Value} (h : decodeLeaf P t j = .ok v) :
    decodeContent P buf t j = .ok v := by
  rcases decodeContent_cases P buf t j with ⟨rfl, js, rfl⟩ | ⟨rfl, js, rfl⟩ | ⟨rfl, js, rfl⟩ | heq
  · simp [decodeLeaf] at h
  · simp [decodeLeaf] at h
  · simp [decodeLeaf] at h
  · rw [heq, h]

theorem check_bind_ok {α : Type} {tail : Outcome DecodeError Unit} {closed : Prop} {a b : α}
    (h : Check tail closed) :
    (tail >>= fun _ => (.ok a : Outcome DecodeError α)) = .ok b ↔ closed ∧ a = b := by
  rw [← h.2]
  cases tail <;> simp

/-- Reader and format agree on `j`: as a value, as content and as a table entry. -/
structure Agrees (P : Platform) (j : Json) : Prop where
  value : ∀ buf v, decode P buf j = .ok v ↔ Denotes P buf j v
  content : ∀ buf t v, decodeContent P buf t j = .ok v ↔ DenotesContent P buf t j v
  entry : ∀ buf e, decodeEntry P buf j = .ok e ↔ DenotesEntry P buf j e

theorem decode_iff {j : Json} (ih : ∀ c ∈ j.children, Agrees P c) (v : Value) :
    decode P buf j = .ok v ↔ Denotes P buf j v := by
  refine ⟨?_, ?_⟩
  · intro h
    rcases decode_cases P buf j with ⟨t, buf', c, closed, ho⟩ | hb | ⟨e, he⟩
    · obtain ⟨tail, hc, heq⟩ := decode_opens P ho
      rw [heq, Outcome.bind_eq_ok] at h
      obtain ⟨w, hw, htail⟩ := h
      obtain ⟨hcl, rfl⟩ := (check_bind_ok hc).mp htail
      exact .content ho hcl (((ih c ho.child).content _ _ _).mp hw)
    · obtain rfl : .none = v := by simpa [decode_bare P hb] using h
      exact .bare hb
    · simp [he] at h
  · intro h
    cases h with
    | bare hb => exact decode_bare P hb
    | content ho hcl hcontent =>
      obtain ⟨tail, hc, heq⟩ := decode_opens P ho
      rw [heq, ((ih _ ho.child).content _ _ _).mpr hcontent]
      exact (check_bind_ok hc).mpr ⟨hcl, rfl⟩

theorem forall₂_iff {α β : Type} {R S : α → β → Prop} {xs : List α} {ys : List β}
    (h : ∀ x ∈ xs, ∀ y, R x y ↔ S x y) : List.Forall₂ R xs ys ↔ List.Forall₂ S xs ys := by
  induction xs generalizing ys with
  | nil => simp
  | cons x xs ih =>
    obtain ⟨hx, hxs⟩ := List.forall_mem_cons.mp h
    simp only [List.forall₂_cons_left_iff, hx, ih hxs]

theorem mapM_decode_iff {js : List Json} (ih : ∀ c ∈ js, Agrees P c) {vs : List Value} :
    js.mapM (decode P buf) = .ok vs ↔ DenotesSeq P buf js vs := by
  rw [Outcome.mapM_eq_ok, denotesSeq_iff]
  exact forall₂_iff fun c hc v => (ih c hc).value buf v

theorem mapM_decodeEntry_iff {js : List Json} (ih : ∀ c ∈ js, Agrees P c)
    {es : List (Value × Value)} :
    js.mapM (decodeEntry P buf) = .ok es ↔ DenotesEntries P buf js es := by
  rw [Outcome.mapM_eq_ok, denotesEntries_iff]
  exact forall₂_iff fun c hc e => (ih c hc).entry buf e

theorem decodeContent_iff {j : Json} (ih : ∀ c ∈ j.children, Agrees P c) (t : Tag) (v : Value) :
    decodeContent P buf t j = .ok v ↔ DenotesContent P buf t j v := by
  refine ⟨?_, ?_⟩
  · intro h
    rcases decodeContent_cases P buf t j with ⟨rfl, js, rfl⟩ | ⟨rfl, js, rfl⟩ | ⟨rfl, js, rfl⟩ | heq
    · rw [decodeContent_vector, Outcome.bind_eq_ok] at h
      obtain ⟨vs, hvs, hv⟩ := h
      obtain rfl := Outcome.ok.inj hv
      exact .vector ((mapM_decode_iff ih).mp hvs)
    · rw [decodeContent_set, Outcome.bind_eq_ok] at h
      obtain ⟨vs, hvs, hv⟩ := h
      obtain rfl := Outcome.ok.inj hv
      exact .set ((mapM_decode_iff ih).mp hvs)
    · rw [decodeContent_table, Outcome.bind_eq_ok] at h
      obtain ⟨es, hes, hv⟩ := h
      obtain rfl := Outcome.ok.inj hv
      exact .table ((mapM_decodeEntry_iff ih).mp hes)
    · exact .leaf (heq ▸ h)
  · intro h
    cases h with
    | leaf hl => exact decodeContent_of_leaf hl
    | vector hs =>
      rw [decodeContent_vector]
      exact Outcome.bind_eq_ok.mpr ⟨_, (mapM_decode_iff ih).mpr hs, rfl⟩
    | set hs =>
      rw [decodeContent_set]
      exact Outcome.bind_eq_ok.mpr ⟨_, (mapM_decode_iff ih).mpr hs, rfl⟩
    | table hs =>
      rw [decodeContent_table]
      exact Outcome.bind_eq_ok.mpr ⟨_, (mapM_decodeEntry_iff ih).mpr hs, rfl⟩

theorem decodeEntry_iff {j : Json} (ih : ∀ c ∈ j.children, Agrees P c) (e : Value × Value) :
    decodeEntry P buf j = .ok e ↔ DenotesEntry P buf j e := by
  refine ⟨?_, ?_⟩
  · intro h
    rcases decodeEntry_cases P buf j with
      ⟨first, second, kf, closed, ho⟩ | ⟨first, hcut⟩ | ⟨err, he⟩
    · obtain ⟨tail, hc, heq⟩ := decodeEntry_opens P buf ho
      rw [heq, Outcome.bind_eq_ok] at h
      obtain ⟨a, ha, h⟩ := h
      obtain ⟨b, hb, h⟩ := Outcome.bind_eq_ok.mp h
      obtain ⟨hcl, rfl⟩ := (check_bind_ok hc).mp h
      exact .halves ho hcl (((ih _ ho.child.1).value _ _).mp ha) (((ih _ ho.child.2).value _ _).mp hb)
    · obtain ⟨err, heq⟩ := decodeEntry_cut P buf hcut
      rw [heq, Outcome.bind_eq_ok] at h
      simp at h
    · simp [he] at h
  · intro h
    cases h with
    | halves ho hcl ha hb =>
      obtain ⟨tail, hc, heq⟩ := decodeEntry_opens P buf ho
      rw [heq, ((ih _ ho.child.1).value _ _).mpr ha, Outcome.ok_bind,
        ((ih _ ho.child.2).value _ _).mpr hb, Outcome.ok_bind]
      exact (check_bind_ok hc).mpr ⟨hcl, rfl⟩

theorem agrees (P : Platform) (j : Json) : Agrees P j := by
  induction j using Json.induct with
  | node j ih => exact ⟨fun _ => decode_iff ih, fun _ => decodeContent_iff ih, fun _ => decodeEntry_iff ih⟩

theorem decode_eq_ok {j : Json} {v : Value} : decode P buf j = .ok v ↔ Denotes P buf j v :=
  (agrees P j).value buf v

theorem decodeLeaf_discriminant {t : Tag} {c : Json} {v : Value} (h : decodeLeaf P t c = .ok v) :
    v.discriminant < 12 := by
  cases c with
  | str s =>
    cases t <;> simp only [decodeLeaf, Outcome.bind_eq_ok, Outcome.pure_def, Outcome.ok.injEq,
      reduceCtorEq] at h <;> first
      | (subst h; simp [discriminant])
      | (obtain ⟨_, _, rfl⟩ := h; simp [discriminant])
  | num n =>
    cases n <;> cases t <;> simp only [decodeLeaf, Outcome.ok.injEq, reduceCtorEq] at h <;> first
      | (subst h; simp [discriminant])
      | (split at h <;> simp at h; subst h; simp [discriminant])
  | _ =>
    cases t <;> simp only [decodeLeaf, Outcome.ok.injEq, reduceCtorEq] at h <;> subst h <;>
      simp [discriminant]

/-- A property that all leaves have and all containers pass on is had by everything inside
whatever was read. -/
theorem forall_parts_of_denotes {Q : Value → Prop}
    (hleaf : ∀ t c v, decodeLeaf P t c = .ok v → Q v) (hvector : ∀ xs, Q (.vector xs))
    (hset : ∀ vs, Q (.set (collectBy cmp keepOld vs)))
    (htable : ∀ es, Q (.table (collectBy (byKey cmp) keepNew es)))
    {j : Json} {v : Value} (h : Denotes P buf j v) : ∀ w ∈ v.parts, Q w := by
  have hnone : Q .none := hleaf .none .null .none rfl
  refine @Denotes.rec P (fun _ _ v _ => ∀ w ∈ v.parts, Q w) (fun _ _ _ v _ => ∀ w ∈ v.parts, Q w)
    (fun _ _ vs _ => ∀ v ∈ vs, ∀ w ∈ v.parts, Q w)
    (fun _ _ es _ => ∀ e ∈ es, (∀ w ∈ e.1.parts, Q w) ∧ ∀ w ∈ e.2.parts, Q w)
    (fun _ _ e _ => (∀ w ∈ e.1.parts, Q w) ∧ ∀ w ∈ e.2.parts, Q w)
    ?bare ?content ?leaf ?vector ?set ?table ?nil ?cons ?nilEntries ?consEntries ?halves buf j v h
  case bare => exact fun _ => List.forall_mem_singleton.mpr hnone
  case content => exact fun _ _ _ ih => ih
  case leaf =>
    intro _ t c v hl
    rw [parts_leaf (decodeLeaf_discriminant hl)]
    exact List.forall_mem_singleton.mpr (hleaf t c v hl)
  case vector => exact fun {_ _ vs} _ ih => forall_parts_vector.mpr ⟨hvector vs, ih⟩
  case set =>
    refine fun {_ _ vs} _ ih => forall_parts_set.mpr ⟨hset vs, fun x hx => ih x ?_⟩
    exact mem_collectBy (fun _ _ => Or.inl rfl) hx
  case table =>
    refine fun {_ _ es} _ ih => forall_parts_table.mpr ⟨htable es, fun e he => ih e ?_⟩
    exact mem_collectBy (fun _ _ => Or.inr rfl) he
  case nil => simp
  case cons => exact fun _ _ hv hvs => List.forall_mem_cons.mpr ⟨hv, hvs⟩
  case nilEntries => simp
  case consEntries => exact fun _ _ he hes => List.forall_mem_cons.mpr ⟨he, hes⟩
  case halves =>
    intro _ _ _ _ kf _ _ _ _ _ _ _ ha hb
    cases kf
    · exact ⟨hb, ha⟩
    · exact ⟨ha, hb⟩

theorem decodeEntry_eq_ok {j : Json} {e : Value × Value} :
    decodeEntry P buf j = .ok e ↔ DenotesEntry P buf j e :=
  (agrees P j).entry buf e

end

end Value

end ZWS
