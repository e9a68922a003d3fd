import ZeekWebSocket.Spec.Format

/-! How the reader goes through a tagged object and a table entry: it opens a content or
fails before it, and what it does after the content cannot panic. -/

namespace ZWS

open Base

theorem unkeyed_or (fs : List (String × Json)) :
    Unkeyed fs ∨ ∃ pre k j post, fs = pre ++ (k, j) :: post ∧ Unkeyed pre ∧
      (k = tagKey ∨ k = contentKey) := by
  cases h : fs.find? fun f => f.1 = tagKey ∨ f.1 = contentKey with
  | none => exact Or.inl fun f hf => by simpa using List.find?_eq_none.mp h f hf
  | some f =>
    obtain ⟨hf, pre, post, rfl, hpre⟩ := List.find?_eq_some_iff_append.mp h
    exact Or.inr ⟨pre, f.1, f.2, post, rfl, fun g hg => by simpa using hpre g hg, by simpa using hf⟩

theorem unnamed_or (fs : List (String × Json)) :
    Unnamed fs ∨ ∃ pre k j post, fs = pre ++ (k, j) :: post ∧ Unnamed pre ∧
      (k = "key" ∨ k = "value") := by
  cases h : fs.find? fun f => f.1 = "key" ∨ f.1 = "value" with
  | none => exact Or.inl fun f hf => by simpa using List.find?_eq_none.mp h f hf
  | some f =>
    obtain ⟨hf, pre, post, rfl, hpre⟩ := List.find?_eq_some_iff_append.mp h
    exact Or.inr ⟨pre, f.1, f.2, post, rfl, fun g hg => by simpa using hpre g hg, by simpa using hf⟩

@[simp] theorem contentKey_ne_tagKey : contentKey ≠ tagKey := by decide

theorem Tag.fromStr_ne_panic (s : String) : Tag.fromStr s ≠ .panic := Outcome.ofOption_ne_panic

theorem Tag.fromStr_name (t : Tag) : Tag.fromStr t.name = .ok t := by cases t <;> rfl

namespace Value

theorem readTag_ne_panic (buf : Bool) (j : Json) : readTag buf j ≠ .panic := by
  unfold readTag
  split
  · exact Tag.fromStr_ne_panic _
  · exact Tag.fromStr_ne_panic _
  · split
    · exact Tag.fromStr_ne_panic _
    · simp
  · simp

theorem readTag_cases (buf : Bool) (j : Json) :
    (∃ t, readTag buf j = .ok t) ∨ ∃ e, readTag buf j = .err e := by
  cases h : readTag buf j with
  | ok t => exact Or.inl ⟨t, rfl⟩
  | err e => exact Or.inr ⟨e, rfl⟩
  | panic => exact absurd h (readTag_ne_panic buf j)

theorem Opens.child {buf buf' : Bool} {j c : Json} {t : Tag} {closed : Prop}
    (h : Opens buf j t buf' c closed) : c ∈ j.children := by
  cases h <;> simp [Json.children]

theorem OpensEntry.child {j first second : Json} {keyFirst : Bool} {closed : Prop}
    (h : OpensEntry j first second keyFirst closed) :
    first ∈ j.children ∧ second ∈ j.children := by
  cases h <;> simp [Json.children]

theorem CutEntry.child {j first : Json} (h : CutEntry j first) : first ∈ j.children := by
  cases h <;> simp [Json.children]

section
variable (P : Platform) (buf : Bool)

theorem visitMap_append {pre : List (String × Json)} (h : Unkeyed pre) (fs : List (String × Json)) :
    visitMap P buf (pre ++ fs) = visitMap P buf fs := by
  induction pre with
  | nil => rfl
  | cons f pre ih =>
    obtain ⟨⟨h1, h2⟩, hpre⟩ := List.forall_mem_cons.mp h
    rw [List.cons_append, visitMap, if_neg h1, if_neg h2, ih hpre]

theorem visitAfterTag_append (t : Tag) {pre : List (String × Json)} (h : Unkeyed pre)
    (fs : List (String × Json)) :
    visitAfterTag P buf t (pre ++ fs) = visitAfterTag P buf t fs := by
  induction pre with
  | nil => rfl
  | cons f pre ih =>
    obtain ⟨⟨h1, h2⟩, hpre⟩ := List.forall_mem_cons.mp h
    rw [List.cons_append, visitAfterTag, if_neg h1, if_neg h2, ih hpre]

theorem visitAfterContent_append (seed : Tag → Outcome DecodeError Value)
    {pre : List (String × Json)} (h : Unkeyed pre) (fs : List (String × Json)) :
    visitAfterContent buf seed (pre ++ fs) = visitAfterContent buf seed fs := by
  induction pre with
  | nil => rfl
  | cons f pre ih =>
    obtain ⟨⟨h1, h2⟩, hpre⟩ := List.forall_mem_cons.mp h
    rw [List.cons_append, visitAfterContent, if_neg h1, if_neg h2, ih hpre]

theorem visitEntry_append (key value : Option Value) {pre : List (String × Json)} (h : Unnamed pre)
    (fs : List (String × Json)) :
    visitEntry P buf key value (pre ++ fs) = visitEntry P buf key value fs := by
  induction pre with
  | nil => rfl
  | cons f pre ih =>
    obtain ⟨⟨h1, h2⟩, hpre⟩ := List.forall_mem_cons.mp h
    rw [List.cons_append, visitEntry, if_neg h1, if_neg h2, ih hpre]

/-- The two fields a tagged object is read from. -/
def keyed (fs : List (String × Json)) : List (String × Json) :=
  fs.filter fun f => f.1 = tagKey ∨ f.1 = contentKey

theorem keyed_cons {f : String × Json} (h : f.1 = tagKey ∨ f.1 = contentKey)
    (fs : List (String × Json)) : keyed (f :: fs) = f :: keyed fs := List.filter_cons_of_pos (by simpa using h)

theorem keyed_cons_other {f : String × Json} (h1 : ¬ f.1 = tagKey) (h2 : ¬ f.1 = contentKey)
    (fs : List (String × Json)) : keyed (f :: fs) = keyed fs :=
  List.filter_cons_of_neg (by simp [h1, h2])

theorem keyed_remove {k : String} (h1 : k ≠ tagKey) (h2 : k ≠ contentKey) (j : Json)
    (pre post : List (String × Json)) : keyed (pre ++ (k, j) :: post) = keyed (pre ++ post) := by
  simp [keyed, List.filter_append, h1, h2]

theorem visitRemaining_keyed (v : Value) (fs : List (String × Json)) :
    visitRemaining v (keyed fs) = visitRemaining v fs := by
  induction fs with
  | nil => rfl
  | cons f fs ih =>
    by_cases h1 : f.1 = tagKey
    · simp [keyed_cons (Or.inl h1), visitRemaining, h1]
    · by_cases h2 : f.1 = contentKey
      · simp [keyed_cons (Or.inr h2), visitRemaining, h2]
      · simp [keyed_cons_other h1 h2, visitRemaining, h1, h2, ih]

theorem visitAfterContent_keyed (seed : Tag → Outcome DecodeError Value)
    (fs : List (String × Json)) :
    visitAfterContent buf seed (keyed fs) = visitAfterContent buf seed fs := by
  induction fs with
  | nil => rfl
  | cons f fs ih =>
    by_cases h1 : f.1 = tagKey
    · simp [keyed_cons (Or.inl h1), visitAfterContent, h1, visitRemaining_keyed]
    · by_cases h2 : f.1 = contentKey
      · simp [keyed_cons (Or.inr h2), visitAfterContent, h2]
      · simp [keyed_cons_other h1 h2, visitAfterContent, h1, h2, ih]

theorem visitAfterTag_keyed (t : Tag) (fs : List (String × Json)) :
    visitAfterTag P buf t (keyed fs) = visitAfterTag P buf t fs := by
  induction fs with
  | nil => rfl
  | cons f fs ih =>
    by_cases h1 : f.1 = tagKey
    · simp [keyed_cons (Or.inl h1), visitAfterTag, h1]
    · by_cases h2 : f.1 = contentKey
      · simp [keyed_cons (Or.inr h2), visitAfterTag, h2, visitRemaining_keyed]
      · simp [keyed_cons_other h1 h2, visitAfterTag, h1, h2, ih]

/-- A reader that sees only its own keys reads the same value. -/
theorem visitMap_keyed (fs : List (String × Json)) : visitMap P buf (keyed fs) = visitMap P buf fs := by
  induction fs with
  | nil => rfl
  | cons f fs ih =>
    by_cases h1 : f.1 = tagKey
    · simp [keyed_cons (Or.inl h1), visitMap, h1, visitAfterTag_keyed]
    · by_cases h2 : f.1 = contentKey
      · simp [keyed_cons (Or.inr h2), visitMap, h2, visitAfterContent_keyed]
      · simp [keyed_cons_other h1 h2, visitMap, h1, h2, ih]

theorem visitMap_remove {k : String} (h1 : k ≠ tagKey) (h2 : k ≠ contentKey) (j : Json)
    (pre post : List (String × Json)) :
    visitMap P buf (pre ++ (k, j) :: post) = visitMap P buf (pre ++ post) := by
  rw [← visitMap_keyed, keyed_remove h1 h2, visitMap_keyed]

/-- A check that comes after the content: it holds or fails, and never panics. -/
def Check (tail : Outcome DecodeError Unit) (closed : Prop) : Prop :=
  tail ≠ .panic ∧ (tail = .ok () ↔ closed)

theorem visitRemaining_check (fs : List (String × Json)) :
    ∃ tail, Check tail (Unkeyed fs) ∧ ∀ v, visitRemaining v fs = tail >>= fun _ => .ok v := by
  induction fs with
  | nil => exact ⟨.ok (), ⟨by simp, by simp [Unkeyed]⟩, fun v => rfl⟩
  | cons f fs ih =>
    by_cases h1 : f.1 = tagKey
    · refine ⟨.err (.duplicateField tagKey), ⟨by simp, ?_⟩, fun v => ?_⟩
      · simp [Unkeyed, h1]
      · rw [visitRemaining, if_pos h1]
        rfl
    · by_cases h2 : f.1 = contentKey
      · refine ⟨.err (.duplicateField contentKey), ⟨by simp, ?_⟩, fun v => ?_⟩
        · simp [Unkeyed, h2]
        · rw [visitRemaining, if_neg h1, if_pos h2]
          rfl
      · obtain ⟨tail, ⟨hp, hok⟩, heq⟩ := ih
        refine ⟨tail, ⟨hp, ?_⟩, fun v => ?_⟩
        · rw [hok]
          simp [Unkeyed, h1, h2]
        · rw [visitRemaining, if_neg h1, if_neg h2, heq]

/-- What decides a value once its content is open. -/
theorem decode_opens {buf buf' : Bool} {j c : Json} {t : Tag} {closed : Prop}
    (h : Opens buf j t buf' c closed) :
    ∃ tail, Check tail closed ∧
      decode P buf j = decodeContent P buf' t c >>= fun v => tail >>= fun _ => .ok v := by
  cases h with
  | @tagFirst pre mid post tj t c hpre ht hmid =>
    obtain ⟨tail, hc, heq⟩ := visitRemaining_check post
    refine ⟨tail, hc, ?_⟩
    rw [decode, visitMap_append P buf hpre, visitMap, if_pos rfl, ht, Outcome.ok_bind,
      visitAfterTag_append P buf t hmid, visitAfterTag, if_neg contentKey_ne_tagKey, if_pos rfl]
    simp only [heq]
  | @contentFirst pre mid post tj t c hpre hmid ht =>
    obtain ⟨tail, hc, heq⟩ := visitRemaining_check post
    refine ⟨tail, hc, ?_⟩
    rw [decode, visitMap_append P buf hpre, visitMap, if_neg contentKey_ne_tagKey, if_pos rfl,
      visitAfterContent_append buf _ hmid, visitAfterContent, if_pos rfl, ht, Outcome.ok_bind]
    simp only [heq]
  | @pair rest tj t c ht =>
    refine ⟨if rest.isEmpty then .ok () else .err (.invalidLength (rest.length + 2)), ⟨?_, ?_⟩, ?_⟩
    · split <;> simp
    · cases rest <;> simp
    · rw [decode, ht, Outcome.ok_bind]
      cases rest <;> rfl

theorem decode_bare {buf : Bool} {j : Json} (h : Bare buf j) : decode P buf j = .ok .none := by
  obtain @⟨pre, post, tj, hpre, ht, hpost⟩ := h
  rw [decode, visitMap_append P buf hpre, visitMap, if_pos rfl, ht, Outcome.ok_bind,
    ← List.append_nil post, visitAfterTag_append P buf .none hpost]
  rfl

/-- The reader opens a content, finds a tag that needs none, or fails. -/
theorem decode_cases (j : Json) :
    (∃ t buf' c closed, Opens buf j t buf' c closed) ∨ Bare buf j ∨ ∃ e, decode P buf j = .err e := by
  cases j with
  | null => exact Or.inr (Or.inr ⟨_, rfl⟩)
  | bool b => exact Or.inr (Or.inr ⟨_, rfl⟩)
  | num n => exact Or.inr (Or.inr ⟨_, rfl⟩)
  | str s => exact Or.inr (Or.inr ⟨_, rfl⟩)
  | arr xs =>
    match xs with
    | [] => exact Or.inr (Or.inr ⟨_, rfl⟩)
    | [tj] =>
      refine Or.inr (Or.inr ?_)
      rcases readTag_cases buf tj with ⟨t, ht⟩ | ⟨e, he⟩
      · exact ⟨.invalidLength 1, by rw [decode, ht]; rfl⟩
      · exact ⟨e, by rw [decode, he]; rfl⟩
    | tj :: c :: rest =>
      rcases readTag_cases buf tj with ⟨t, ht⟩ | ⟨e, he⟩
      · exact Or.inl ⟨t, buf, c, _, .pair ht⟩
      · exact Or.inr (Or.inr ⟨e, by rw [decode, he]; rfl⟩)
  | obj fs =>
    rcases unkeyed_or fs with h | ⟨pre, k, j, post, rfl, hpre, hk⟩
    · refine Or.inr (Or.inr ⟨.missingField tagKey, ?_⟩)
      rw [decode, ← List.append_nil fs, visitMap_append P buf h]
      rfl
    · rcases hk with rfl | rfl
      · rcases readTag_cases buf j with ⟨t, ht⟩ | ⟨e, he⟩
        · rcases unkeyed_or post with hpost | ⟨mid, k, c, post, rfl, hmid, hk⟩
          · by_cases hnone : t = .none
            · subst hnone
              exact Or.inr (Or.inl ⟨hpre, ht, hpost⟩)
            · refine Or.inr (Or.inr ⟨.missingField contentKey, ?_⟩)
              rw [decode, visitMap_append P buf hpre, visitMap, if_pos rfl, ht, Outcome.ok_bind,
                ← List.append_nil post, visitAfterTag_append P buf t hpost, visitAfterTag,
                if_neg hnone]
          · rcases hk with rfl | rfl
            · refine Or.inr (Or.inr ⟨.duplicateField tagKey, ?_⟩)
              rw [decode, visitMap_append P buf hpre, visitMap, if_pos rfl, ht, Outcome.ok_bind,
                visitAfterTag_append P buf t hmid, visitAfterTag, if_pos rfl]
            · exact Or.inl ⟨t, buf, c, _, .tagFirst hpre ht hmid⟩
        · refine Or.inr (Or.inr ⟨e, ?_⟩)
          rw [decode, visitMap_append P buf hpre, visitMap, if_pos rfl, he]
          rfl
      · have hstart : decode P buf (.obj (pre ++ (contentKey, j) :: post)) =
            visitAfterContent buf (fun t => decodeContent P true t j) post := by
          rw [decode, visitMap_append P buf hpre, visitMap, if_neg contentKey_ne_tagKey, if_pos rfl]
        rcases unkeyed_or post with hpost | ⟨mid, k, tj, post, rfl, hmid, hk⟩
        · refine Or.inr (Or.inr ⟨.missingField tagKey, ?_⟩)
          rw [hstart, ← List.append_nil post, visitAfterContent_append buf _ hpost]
          rfl
        · rcases hk with rfl | rfl
          · rcases readTag_cases buf tj with ⟨t, ht⟩ | ⟨e, he⟩
            · exact Or.inl ⟨t, true, j, _, .contentFirst hpre hmid ht⟩
            · refine Or.inr (Or.inr ⟨e, ?_⟩)
              rw [hstart, visitAfterContent_append buf _ hmid, visitAfterContent, if_pos rfl, he]
              rfl
          · refine Or.inr (Or.inr ⟨.duplicateField contentKey, ?_⟩)
            rw [hstart, visitAfterContent_append buf _ hmid, visitAfterContent,
              if_neg contentKey_ne_tagKey, if_pos rfl]

theorem visitEntry_check (fs : List (String × Json)) :
    ∃ tail, Check tail (Unnamed fs) ∧
      ∀ k v, visitEntry P buf (some k) (some v) fs = tail >>= fun _ => .ok (k, v) := by
  induction fs with
  | nil => exact ⟨.ok (), ⟨by simp, by simp [Unnamed]⟩, fun k v => rfl⟩
  | cons f fs ih =>
    by_cases h1 : f.1 = "key"
    · refine ⟨.err (.duplicateField "key"), ⟨by simp, ?_⟩, fun k v => ?_⟩
      · simp [Unnamed, h1]
      · rw [visitEntry, if_pos h1]
        rfl
    · by_cases h2 : f.1 = "value"
      · refine ⟨.err (.duplicateField "value"), ⟨by simp, ?_⟩, fun k v => ?_⟩
        · simp [Unnamed, h2]
        · rw [visitEntry, if_neg h1, if_pos h2]
          rfl
      · obtain ⟨tail, ⟨hp, hok⟩, heq⟩ := ih
        refine ⟨tail, ⟨hp, ?_⟩, fun k v => ?_⟩
        · rw [hok]
          simp [Unnamed, h1, h2]
        · rw [visitEntry, if_neg h1, if_neg h2, heq]

/-- What decides a table entry with both halves. -/
theorem decodeEntry_opens {j first second : Json} {keyFirst : Bool} {closed : Prop}
    (h : OpensEntry j first second keyFirst closed) :
    ∃ tail, Check tail closed ∧
      decodeEntry P buf j = decode P buf first >>= fun a => decode P buf second >>= fun b =>
        tail >>= fun _ => .ok (pairUp keyFirst a b) := by
  cases h with
  | @keyFirst pre mid post kj vj hpre hmid =>
    obtain ⟨tail, hc, heq⟩ := visitEntry_check P buf post
    refine ⟨tail, hc, ?_⟩
    rw [decodeEntry, visitEntry_append P buf _ _ hpre, visitEntry, if_pos rfl]
    simp only [visitEntry_append P buf _ _ hmid, visitEntry, heq, pairUp]
    rfl
  | @valueFirst pre mid post kj vj hpre hmid =>
    obtain ⟨tail, hc, heq⟩ := visitEntry_check P buf post
    refine ⟨tail, hc, ?_⟩
    rw [decodeEntry, visitEntry_append P buf _ _ hpre, visitEntry, if_neg (by decide), if_pos rfl]
    simp only [visitEntry_append P buf _ _ hmid, visitEntry, heq, pairUp]
    rfl
  | @pair rest kj vj =>
    refine ⟨if rest.isEmpty then .ok () else .err (.invalidLength (rest.length + 2)), ⟨?_, ?_⟩, ?_⟩
    · split <;> simp
    · cases rest <;> simp
    · rw [decodeEntry]
      cases rest <;> rfl

/-- Without its other half an entry fails as soon as the half it has is read. -/
theorem decodeEntry_cut {j first : Json} (h : CutEntry j first) :
    ∃ e, decodeEntry P buf j = decode P buf first >>= fun _ => .err e := by
  cases h with
  | @alone pre post k j hpre hk hpost =>
    rcases hk with rfl | rfl
    · refine ⟨.missingField "value", ?_⟩
      rw [decodeEntry, visitEntry_append P buf _ _ hpre, visitEntry, if_pos rfl,
        ← List.append_nil post]
      simp only [visitEntry_append P buf _ _ hpost, visitEntry]
      rfl
    · refine ⟨.missingField "key", ?_⟩
      rw [decodeEntry, visitEntry_append P buf _ _ hpre, visitEntry, if_neg (by decide), if_pos rfl,
        ← List.append_nil post]
      simp only [visitEntry_append P buf _ _ hpost, visitEntry]
      rfl
  | @twice pre mid post k j j' hpre hk hmid =>
    rcases hk with rfl | rfl
    · refine ⟨.duplicateField "key", ?_⟩
      rw [decodeEntry, visitEntry_append P buf _ _ hpre, visitEntry, if_pos rfl]
      simp only [visitEntry_append P buf _ _ hmid, visitEntry]
      rfl
    · refine ⟨.duplicateField "value", ?_⟩
      rw [decodeEntry, visitEntry_append P buf _ _ hpre, visitEntry, if_neg (by decide), if_pos rfl]
      simp only [visitEntry_append P buf _ _ hmid, visitEntry]
      rfl
  | single => exact ⟨_, rfl⟩

theorem decodeEntry_cases (j : Json) :
    (∃ first second keyFirst closed, OpensEntry j first second keyFirst closed) ∨
      (∃ first, CutEntry j first) ∨ ∃ e, decodeEntry P buf j = .err e := by
  cases j with
  | null => exact Or.inr (Or.inr ⟨_, rfl⟩)
  | bool b => exact Or.inr (Or.inr ⟨_, rfl⟩)
  | num n => exact Or.inr (Or.inr ⟨_, rfl⟩)
  | str s => exact Or.inr (Or.inr ⟨_, rfl⟩)
  | arr xs =>
    match xs with
    | [] => exact Or.inr (Or.inr ⟨_, rfl⟩)
    | [j] => exact Or.inr (Or.inl ⟨j, .single⟩)
    | kj :: vj :: rest => exact Or.inl ⟨kj, vj, true, _, .pair⟩
  | obj fs =>
    rcases unnamed_or fs with h | ⟨pre, k, j, post, rfl, hpre, hk⟩
    · refine Or.inr (Or.inr ⟨.missingField "key", ?_⟩)
      rw [decodeEntry, ← List.append_nil fs, visitEntry_append P buf _ _ h]
      rfl
    · rcases unnamed_or post with hpost | ⟨mid, k', j', post, rfl, hmid, hk'⟩
      · exact Or.inr (Or.inl ⟨j, .alone hpre hk hpost⟩)
      · by_cases hkk : k' = k
        · subst hkk
          exact Or.inr (Or.inl ⟨j, .twice hpre hk hmid⟩)
        · rcases hk with rfl | rfl <;> rcases hk' with rfl | rfl
          · exact absurd rfl hkk
          · exact Or.inl ⟨j, j', true, _, .keyFirst hpre hmid⟩
          · exact Or.inl ⟨j, j', false, _, .valueFirst hpre hmid⟩
          · exact absurd rfl hkk

end

end Value

end ZWS
