import ZeekWebSocket.Sanity.Format
import ZeekWebSocket.Sanity.Message
import ZeekWebSocket.Sanity.Sample

/-! The order of the fields in a document. Readers of messages buffer what they read and take fields
in any order; a reader of a value alone does so unless a tag is spelled in a way that only buffered
documents can have. -/

namespace ZWS

open Base Json

section
variable {fs rest : List (String × Json)} {f g : String × Json}

/-- A field of an object, with the others around it. -/
theorem exists_split (h : fs.Perm (f :: rest)) :
    ∃ pre post, fs = pre ++ f :: post ∧ (pre ++ post).Perm rest := by
  obtain ⟨pre, post, rfl⟩ := List.append_of_mem (h.mem_iff.mpr List.mem_cons_self)
  exact ⟨pre, post, rfl, (List.perm_middle.symm.trans h).cons_inv⟩

theorem perm_two (pre mid post : List (String × Json)) :
    (pre ++ f :: (mid ++ g :: post)).Perm (f :: g :: (pre ++ (mid ++ post))) := by
  have hg : (pre ++ (mid ++ g :: post)).Perm (g :: (pre ++ (mid ++ post))) := by
    rw [← List.append_assoc, ← List.append_assoc]
    exact List.perm_middle
  exact List.perm_middle.trans (hg.cons f)

/-- Two fields of an object stand in one order or the other. -/
theorem exists_split_two (h : fs.Perm (f :: g :: rest)) : ∃ pre mid post,
    (fs = pre ++ f :: (mid ++ g :: post) ∨ fs = pre ++ g :: (mid ++ f :: post)) ∧
      (pre ++ (mid ++ post)).Perm rest := by
  obtain ⟨a, b, rfl, hab⟩ := exists_split h
  obtain ⟨c, d, hcd, hrest⟩ := exists_split hab
  rcases List.append_eq_append_iff.mp hcd with ⟨e, rfl, rfl⟩ | ⟨e, rfl, he⟩
  · exact ⟨a, e, d, .inl rfl, by rwa [List.append_assoc] at hrest⟩
  · cases e with
    | nil =>
      obtain rfl : g :: d = b := by simpa using he
      exact ⟨c, [], d, .inl (by simp), hrest⟩
    | cons x e =>
      obtain ⟨rfl, rfl⟩ := List.cons.inj he
      exact ⟨c, e, b, .inr (by simp), hrest⟩

/-- The same fields have the same keys. -/
theorem forall_keys {p : String → Prop} {gs : List (String × Json)} (h : List.Forall₂ SameField fs gs)
    (hp : ∀ f ∈ fs, p f.1) : ∀ g ∈ gs, p g.1 := by
  rw [← List.forall_mem_map (P := p)] at hp ⊢
  rwa [← (sameFields_iff.mp h).1]

end

namespace Value

section
variable {P : Platform} {buf : Bool} {fs : List (String × Json)}

theorem unkeyed_append {pre post : List (String × Json)} :
    Unkeyed (pre ++ post) ↔ Unkeyed pre ∧ Unkeyed post := List.forall_mem_append

theorem unkeyed_perm {gs : List (String × Json)} (h : fs.Perm gs) : Unkeyed fs ↔ Unkeyed gs :=
  forall_congr' fun _ => by rw [h.mem_iff]

theorem unnamed_append {pre post : List (String × Json)} :
    Unnamed (pre ++ post) ↔ Unnamed pre ∧ Unnamed post := List.forall_mem_append

theorem unnamed_perm {gs : List (String × Json)} (h : fs.Perm gs) : Unnamed fs ↔ Unnamed gs :=
  forall_congr' fun _ => by rw [h.mem_iff]

theorem bare_iff : Bare buf (.obj fs) ↔
    ∃ tj rest, fs.Perm ((tagKey, tj) :: rest) ∧ Unkeyed rest ∧ readTag buf tj = .ok .none := by
  refine ⟨?_, ?_⟩
  · rintro ⟨hpre, htag, hpost⟩
    exact ⟨_, _, List.perm_middle, unkeyed_append.mpr ⟨hpre, hpost⟩, htag⟩
  · rintro ⟨tj, rest, hp, hrest, htag⟩
    obtain ⟨pre, post, rfl, hp'⟩ := exists_split hp
    obtain ⟨hpre, hpost⟩ := unkeyed_append.mp ((unkeyed_perm hp').mpr hrest)
    exact .mk hpre htag hpost

/-- A buffered object opens in any order of its fields. -/
theorem opens_iff {t : Tag} {c : Json} :
    (∃ closed, Opens true (.obj fs) t true c closed ∧ closed) ↔
      ∃ tj rest, fs.Perm ((tagKey, tj) :: (contentKey, c) :: rest) ∧ Unkeyed rest ∧
        readTag true tj = .ok t := by
  refine ⟨?_, ?_⟩
  · rintro ⟨_, ho, hc⟩
    cases ho with
    | tagFirst hpre htag hmid =>
      exact ⟨_, _, perm_two _ _ _, unkeyed_append.mpr ⟨hpre, unkeyed_append.mpr ⟨hmid, hc⟩⟩, htag⟩
    | contentFirst hpre hmid htag =>
      exact ⟨_, _, (perm_two _ _ _).trans (.swap _ _ _),
        unkeyed_append.mpr ⟨hpre, unkeyed_append.mpr ⟨hmid, hc⟩⟩, htag⟩
  · rintro ⟨tj, rest, hp, hrest, htag⟩
    obtain ⟨pre, mid, post, hfs, hp'⟩ := exists_split_two hp
    obtain ⟨hpre, hmp⟩ := unkeyed_append.mp ((unkeyed_perm hp').mpr hrest)
    obtain ⟨hmid, hpost⟩ := unkeyed_append.mp hmp
    rcases hfs with rfl | rfl
    · exact ⟨_, .tagFirst hpre htag hmid, hpost⟩
    · exact ⟨_, .contentFirst hpre hmid htag, hpost⟩

/-- An entry is read in any order of its fields. -/
theorem denotesEntry_obj {e : Value × Value} : DenotesEntry P buf (.obj fs) e ↔
    ∃ kj vj rest, fs.Perm (("key", kj) :: ("value", vj) :: rest) ∧ Unnamed rest ∧
      Denotes P buf kj e.1 ∧ Denotes P buf vj e.2 := by
  refine ⟨?_, ?_⟩
  · intro h
    cases h with
    | halves ho hc ha hb =>
      cases ho with
      | keyFirst hpre hmid =>
        exact ⟨_, _, _, perm_two _ _ _,
          unnamed_append.mpr ⟨hpre, unnamed_append.mpr ⟨hmid, hc⟩⟩, ha, hb⟩
      | valueFirst hpre hmid =>
        exact ⟨_, _, _, (perm_two _ _ _).trans (.swap _ _ _),
          unnamed_append.mpr ⟨hpre, unnamed_append.mpr ⟨hmid, hc⟩⟩, hb, ha⟩
  · rintro ⟨kj, vj, rest, hp, hrest, hk, hv⟩
    obtain ⟨pre, mid, post, hfs, hp'⟩ := exists_split_two hp
    obtain ⟨hpre, hmp⟩ := unnamed_append.mp ((unnamed_perm hp').mpr hrest)
    obtain ⟨hmid, hpost⟩ := unnamed_append.mp hmp
    rcases hfs with rfl | rfl
    · exact .halves (.keyFirst hpre hmid) hpost hk hv
    · exact .halves (.valueFirst hpre hmid) hpost hv hk

/-- Tags are no objects of several fields. -/
theorem readTag_long (h : 2 ≤ fs.length) : readTag buf (.obj fs) = .err .invalidType := by
  match fs with
  | [] => simp at h
  | [f] => simp at h
  | f :: g :: fs => simp [readTag]

theorem readTag_single {s : String} {j k : Json} (h : Reordered j k) :
    readTag buf (.obj [(s, k)]) = readTag buf (.obj [(s, j)]) := by
  cases h with
  | @obj fs gs hs hk hv hp =>
    have hfg : fs.length = gs.length := by simpa using congrArg List.length hk
    have hlen : fs.length = hs.length := hfg.trans hp.length_eq
    match fs, hs, hlen with
    | [], [], _ => rfl
    | f :: fs, h :: hs, _ => rfl
  | _ => rfl

theorem readTag_reordered {j k : Json} (h : Reordered j k) : readTag buf k = readTag buf j := by
  cases h with
  | @obj fs gs hs hk hv hp =>
    have hfg : fs.length = gs.length := by simpa using congrArg List.length hk
    match fs with
    | [] =>
      obtain rfl := List.length_eq_zero_iff.mp hfg.symm
      rw [hp.nil_eq]
    | [f] =>
      obtain ⟨g, rfl⟩ := List.length_eq_one_iff.mp hfg.symm
      obtain rfl := List.singleton_perm.mp hp
      obtain ⟨hsame, -⟩ := List.forall₂_cons.mp (sameFields_iff.mpr ⟨hk, hv⟩)
      obtain ⟨s, j⟩ := f
      obtain ⟨s', k⟩ := g
      obtain rfl : s = s' := hsame.1
      exact readTag_single hsame.2
    | f :: f' :: fs =>
      have hlong : 2 ≤ (f :: f' :: fs).length := by simp
      rw [readTag_long hlong, readTag_long (hlong.trans_eq (hfg.trans hp.length_eq))]
  | _ => rfl

theorem decodeLeaf_reordered {j k : Json} (h : Reordered j k) (t : Tag) :
    decodeLeaf P t k = decodeLeaf P t j := by
  cases h with
  | arr h => cases t <;> rfl
  | obj hk hv hp => cases t <;> rfl
  | _ => rfl

theorem bare_reordered {j k : Json} (h : Bare true j) (hr : Reordered j k) : Bare true k := by
  obtain ⟨fs, rfl⟩ : ∃ fs, j = .obj fs := by
    cases h
    exact ⟨_, rfl⟩
  obtain ⟨tj, rest, hp, hrest, htag⟩ := bare_iff.mp h
  obtain ⟨gs, gs', rfl, hp', hsame⟩ := hr.fields hp
  obtain ⟨⟨_, tk⟩, rest', ⟨rfl, htk⟩, hrest', rfl⟩ := List.forall₂_cons_left_iff.mp hsame
  exact bare_iff.mpr ⟨tk, rest', hp'.symm,
    forall_keys (p := fun k => k ≠ tagKey ∧ k ≠ contentKey) hrest' hrest,
    (readTag_reordered htk).trans htag⟩

theorem opens_reordered {j k c : Json} {t : Tag} {b : Bool} {closed : Prop} (h : Opens true j t b c closed)
    (hc : closed) (hr : Reordered j k) :
    ∃ c' closed', Opens true k t true c' closed' ∧ closed' ∧ Reordered c c' := by
  have hobj : ∀ fs, j = .obj fs → b = true →
      ∃ c' closed', Opens true k t true c' closed' ∧ closed' ∧ Reordered c c' := by
    rintro fs rfl rfl
    obtain ⟨tj, rest, hp, hrest, htag⟩ := opens_iff.mp ⟨closed, h, hc⟩
    obtain ⟨gs, gs', rfl, hp', hsame⟩ := hr.fields hp
    obtain ⟨⟨_, tk⟩, _, ⟨rfl, htk⟩, hsame', rfl⟩ := List.forall₂_cons_left_iff.mp hsame
    obtain ⟨⟨_, ck⟩, rest', ⟨rfl, hck⟩, hrest', rfl⟩ := List.forall₂_cons_left_iff.mp hsame'
    obtain ⟨closed', ho, hc'⟩ := opens_iff.mpr
      ⟨tk, rest', hp'.symm, forall_keys (p := fun k => k ≠ tagKey ∧ k ≠ contentKey) hrest' hrest,
        (readTag_reordered htk).trans htag⟩
    exact ⟨ck, closed', ho, hc', hck⟩
  cases h with
  | tagFirst => exact hobj _ rfl rfl
  | contentFirst => exact hobj _ rfl rfl
  | pair htag =>
    cases hr with
    | arr hsame =>
      obtain ⟨tk, _, htk, hsame', rfl⟩ := List.forall₂_cons_left_iff.mp hsame
      obtain ⟨ck, rest', hck, hrest', rfl⟩ := List.forall₂_cons_left_iff.mp hsame'
      obtain rfl := hc
      obtain rfl := List.forall₂_nil_left_iff.mp hrest'
      exact ⟨ck, _, .pair ((readTag_reordered htk).trans htag), rfl, hck⟩

theorem opens_buffered {j c : Json} {t : Tag} {b : Bool} {closed : Prop} (h : Opens true j t b c closed) :
    b = true := by
  cases h <;> rfl

/-- What a buffered document stands for, it stands for in any order of its fields. -/
structure Keeps (P : Platform) (j : Json) : Prop where
  value : ∀ k, Reordered j k → ∀ v, Denotes P true j v → Denotes P true k v
  content : ∀ k, Reordered j k → ∀ t v, DenotesContent P true t j v → DenotesContent P true t k v
  entry : ∀ k, Reordered j k → ∀ e, DenotesEntry P true j e → DenotesEntry P true k e

theorem keeps_seq {R : Json → α → Prop} {js ks : List Json} {vs : List α}
    (ih : ∀ j ∈ js, ∀ k, Reordered j k → ∀ v, R j v → R k v) (hr : List.Forall₂ Reordered js ks)
    (h : List.Forall₂ R js vs) : List.Forall₂ R ks vs := by
  induction hr generalizing vs with
  | nil => exact h
  | cons hjk _ ih' =>
    obtain ⟨v, vs, hv, hvs, rfl⟩ := List.forall₂_cons_left_iff.mp h
    obtain ⟨hj, hjs⟩ := List.forall_mem_cons.mp ih
    exact .cons (hj _ hjk _ hv) (ih' hjs hvs)

theorem keeps (P : Platform) (j : Json) : Keeps P j := by
  induction j using Json.induct with
  | node j ih =>
    refine ⟨fun k hr v h => ?_, fun k hr t v h => ?_, fun k hr e h => ?_⟩
    · cases h with
      | bare hb => exact .bare (bare_reordered hb hr)
      | content ho hc hcontent =>
        obtain rfl := opens_buffered ho
        obtain ⟨c', closed', ho', hc', hcc⟩ := opens_reordered ho hc hr
        exact .content ho' hc' ((ih _ ho.child).content c' hcc _ _ hcontent)
    · cases h with
      | leaf hl => exact .leaf ((decodeLeaf_reordered hr t).trans hl)
      | vector hs =>
        cases hr with
        | arr hr => exact .vector (denotesSeq_iff.mpr
            (keeps_seq (fun j hj => (ih j hj).value) hr (denotesSeq_iff.mp hs)))
      | set hs =>
        cases hr with
        | arr hr => exact .set (denotesSeq_iff.mpr
            (keeps_seq (fun j hj => (ih j hj).value) hr (denotesSeq_iff.mp hs)))
      | table hs =>
        cases hr with
        | arr hr => exact .table (denotesEntries_iff.mpr
            (keeps_seq (fun j hj => (ih j hj).entry) hr (denotesEntries_iff.mp hs)))
    · cases j with
      | obj fs =>
        obtain ⟨kj, vj, rest, hp, hrest, hk, hv⟩ := denotesEntry_obj.mp h
        have hmem : ∀ f ∈ ("key", kj) :: ("value", vj) :: rest, f.2 ∈ (Json.obj fs).children :=
          fun f hf => List.mem_map_of_mem (hp.mem_iff.mpr hf)
        obtain ⟨gs, gs', rfl, hp', hsame⟩ := hr.fields hp
        obtain ⟨⟨_, kk⟩, _, ⟨rfl, hkk⟩, hsame', rfl⟩ := List.forall₂_cons_left_iff.mp hsame
        obtain ⟨⟨_, vk⟩, rest', ⟨rfl, hvk⟩, hrest', rfl⟩ := List.forall₂_cons_left_iff.mp hsame'
        exact denotesEntry_obj.mpr ⟨kk, vk, rest', hp'.symm,
          forall_keys (p := fun k => k ≠ "key" ∧ k ≠ "value") hrest' hrest,
          (ih kj (hmem ("key", kj) (by simp))).value kk hkk _ hk,
          (ih vj (hmem ("value", vj) (by simp))).value vk hvk _ hv⟩
      | arr js =>
        cases h with
        | halves ho hc ha hb =>
          cases ho with
          | pair =>
            cases hr with
            | arr hsame =>
              obtain ⟨kk, _, hkk, hsame', rfl⟩ := List.forall₂_cons_left_iff.mp hsame
              obtain ⟨vk, rest', hvk, hrest', rfl⟩ := List.forall₂_cons_left_iff.mp hsame'
              obtain rfl := hc
              obtain rfl := List.forall₂_nil_left_iff.mp hrest'
              exact .halves .pair rfl ((ih _ (by simp [Json.children])).value kk hkk _ ha)
                ((ih _ (by simp [Json.children])).value vk hvk _ hb)
      | _ =>
        cases h with
        | halves ho => cases ho

/-- Fields in another order are the same value, in a buffer. -/
theorem denotes_reordered {j k : Json} (h : Reordered j k) {v : Value} :
    Denotes P true j v ↔ Denotes P true k v :=
  ⟨(keeps P j).value k h v, (keeps P k).value j h.symm v⟩

/-- The property holds of a document and of everything inside it. -/
inductive Throughout (p : Json → Prop) : Json → Prop
  | node {j : Json} (h : p j) (hc : ∀ c ∈ j.children, Throughout p c) : Throughout p j

theorem Throughout.here {p : Json → Prop} {j : Json} (h : Throughout p j) : p j := by
  cases h with
  | node h _ => exact h

theorem Throughout.child {p : Json → Prop} {j c : Json} (h : Throughout p j) (hc : c ∈ j.children) :
    Throughout p c := by
  cases h with
  | node _ h => exact h c hc

theorem throughout {p : Json → Prop} (h : ∀ j, p j) (j : Json) : Throughout p j := by
  induction j using Json.induct with
  | node j ih => exact .node (h j) ih

theorem Throughout.mono {p q : Json → Prop} (hpq : ∀ j, p j → q j) {j : Json} (h : Throughout p j) :
    Throughout q j := by
  induction h with
  | node h _ ih => exact .node (hpq _ h) ih

/-- A tag that is read in one way is read in the other. -/
def TagKept (buf buf' : Bool) (j : Json) : Prop := ∀ t, readTag buf j = .ok t → readTag buf' j = .ok t

/-- Where a tagged value has its tag. -/
def tags : Json → List Json
  | .obj fs => (fs.filter fun f => f.1 = tagKey).map Prod.snd
  | .arr [tag, _] => [tag]
  | _ => []

theorem mem_tags_obj {fs : List (String × Json)} {t : Json} : t ∈ tags (.obj fs) ↔ (tagKey, t) ∈ fs := by
  simp only [tags, List.mem_map, List.mem_filter, decide_eq_true_eq]
  refine ⟨?_, fun h => ⟨_, ⟨h, rfl⟩, rfl⟩⟩
  rintro ⟨⟨_, _⟩, ⟨hf, rfl⟩, rfl⟩
  exact hf

/-- The tags here are read in the other way too. -/
def TagsKept (buf buf' : Bool) (j : Json) : Prop := ∀ t ∈ tags j, TagKept buf buf' t

/-- No tag here is spelled as an object of one field that is the empty object, which only a buffer
takes for a unit. -/
def Spelled (j : Json) : Prop := ∀ t ∈ tags j, ∀ s, t ≠ .obj [(s, .obj [])]

theorem tagsKept_buffered (j : Json) : TagsKept false true j := by
  intro tag _ t h
  unfold readTag at h ⊢
  split at h <;> simp_all

theorem Spelled.tagsKept {j : Json} (h : Spelled j) : TagsKept true false j := by
  intro tag hmem t ht
  unfold readTag at ht ⊢
  split at ht
  · exact ht
  · exact ht
  · exact absurd rfl (h _ hmem _)
  · simp at ht

/-- A document is read in one way as in the other. -/
structure Rereads (P : Platform) (buf buf' : Bool) (j : Json) : Prop where
  value : ∀ v, Denotes P buf j v → Denotes P buf' j v
  content : ∀ t v, DenotesContent P buf t j v → DenotesContent P buf' t j v
  entry : ∀ e, DenotesEntry P buf j e → DenotesEntry P buf' j e

theorem rereads {buf' : Bool} {j : Json} (h : Throughout (TagsKept buf buf') j) : Rereads P buf buf' j := by
  induction j using Json.induct with
  | node j ih =>
    have ih : ∀ c ∈ j.children, Rereads P buf buf' c := fun c hc => ih c hc (h.child hc)
    have htags := h.here
    refine ⟨fun v hv => ?_, fun t v hv => ?_, fun e he => ?_⟩
    · cases hv with
      | bare hb =>
        cases hb with
        | mk hpre htag hpost => exact .bare (.mk hpre (htags _ (mem_tags_obj.mpr (by simp)) _ htag) hpost)
      | content ho hc hcontent =>
        have hchild := ho.child
        cases ho with
        | tagFirst hpre htag hmid =>
          exact .content (.tagFirst hpre (htags _ (mem_tags_obj.mpr (by simp)) _ htag) hmid) hc
            ((ih _ hchild).content _ _ hcontent)
        | contentFirst hpre hmid htag =>
          exact .content (.contentFirst hpre hmid (htags _ (mem_tags_obj.mpr (by simp)) _ htag)) hc hcontent
        | pair htag =>
          subst hc
          exact .content (.pair (htags _ (by simp [tags]) _ htag)) rfl ((ih _ hchild).content _ _ hcontent)
    · cases hv with
      | leaf hl => exact .leaf hl
      | vector hs =>
        exact .vector (denotesSeq_iff.mpr
          (forall₂_of_mem (denotesSeq_iff.mp hs) fun c hc v hv => (ih c hc).value v hv))
      | set hs =>
        exact .set (denotesSeq_iff.mpr
          (forall₂_of_mem (denotesSeq_iff.mp hs) fun c hc v hv => (ih c hc).value v hv))
      | table hs =>
        exact .table (denotesEntries_iff.mpr
          (forall₂_of_mem (denotesEntries_iff.mp hs) fun c hc e he => (ih c hc).entry e he))
    · cases he with
      | halves ho hc ha hb =>
        obtain ⟨h1, h2⟩ := ho.child
        exact .halves ho hc ((ih _ h1).value _ ha) ((ih _ h2).value _ hb)

theorem reordered_nil {j : Json} (h : Reordered j (.obj [])) : j = .obj [] := by
  obtain ⟨gs, gs', rfl, hp, hsame⟩ := h.symm.fields (.refl _)
  obtain rfl := List.forall₂_nil_left_iff.mp hsame
  rw [hp.nil_eq]

/-- Every tag stands in the other document too, its fields in another order. -/
theorem exists_tag {j k t : Json} (hr : Reordered j k) (ht : t ∈ tags k) :
    ∃ t' ∈ tags j, Reordered t' t := by
  cases hr with
  | @obj fs gs hs hk hv hp =>
    have hback := (List.forall₂_and_left fs gs).mpr
      ⟨fun _ hf => hf, sameFields_iff.mpr ⟨hk, hv⟩⟩
    obtain ⟨⟨name, t'⟩, ⟨hf, hname, hsame⟩, -⟩ := exists_of_forall₂ hback.flip hback.flip
      (hp.mem_iff.mpr (mem_tags_obj.mp ht))
    obtain rfl : name = tagKey := hname
    exact ⟨t', mem_tags_obj.mpr hf, hsame⟩
  | @arr xs ys hs =>
    match ys, ht with
    | [tag, _], ht =>
      obtain rfl := List.mem_singleton.mp ht
      obtain ⟨t', _, hsame, hrest, rfl⟩ := List.forall₂_cons_right_iff.mp hs
      obtain ⟨_, _, -, hnil, rfl⟩ := List.forall₂_cons_right_iff.mp hrest
      obtain rfl := List.forall₂_nil_right_iff.mp hnil
      exact ⟨t', by simp [tags], hsame⟩
  | _ => simp [tags] at ht

theorem reordered_unit {j : Json} {s : String} (h : Reordered j (.obj [(s, .obj [])])) :
    j = .obj [(s, .obj [])] := by
  obtain ⟨fs, fs', rfl, hp, hsame⟩ := h.symm.fields (.refl _)
  obtain ⟨⟨_, x⟩, _, ⟨rfl, hx⟩, hnil, rfl⟩ := List.forall₂_cons_left_iff.mp hsame
  obtain rfl := List.forall₂_nil_left_iff.mp hnil
  obtain rfl : x = .obj [] := reordered_nil hx.symm
  rw [List.singleton_perm.mp hp]

theorem spelled_of_reordered {j k : Json} (hr : Reordered j k) (h : Spelled j) : Spelled k := by
  rintro t ht s rfl
  obtain ⟨t', ht', hsame⟩ := exists_tag hr ht
  exact h t' ht' s (reordered_unit hsame)

theorem spelled_reordered {j k : Json} (hr : Reordered j k) (h : Throughout Spelled j) :
    Throughout Spelled k := by
  induction j using Json.induct generalizing k with
  | node j ih =>
    have hchildren : ∀ {js ks : List Json}, List.Forall₂ Reordered js ks →
        (∀ c ∈ js, c ∈ j.children) →
        ∀ c ∈ ks, Throughout Spelled c := by
      intro js ks hsame
      induction hsame with
      | nil => simp
      | cons hxc _ ih' =>
        intro hmem
        obtain ⟨hx, hxs⟩ := List.forall_mem_cons.mp hmem
        exact List.forall_mem_cons.mpr ⟨ih _ hx hxc (h.child hx), ih' hxs⟩
    have hhere := spelled_of_reordered hr h.here
    cases hr with
    | arr hs => exact .node hhere (hchildren hs fun c hc => hc)
    | obj hk hv hp =>
      refine .node hhere fun c hc => ?_
      exact hchildren hv (fun c hc => hc) c ((hp.map Prod.snd).mem_iff.mpr hc)
    | _ => exact h

/-- Fields in another order are the same value outside a buffer too, but for that spelling of tags. -/
theorem denotes_spelled {j k : Json} (h : Reordered j k) (hj : Throughout Spelled j) {v : Value} :
    Denotes P false j v ↔ Denotes P false k v := by
  have hsame : ∀ {j}, Throughout Spelled j → (Denotes P false j v ↔ Denotes P true j v) := fun {j} hj =>
    ⟨(rereads (throughout tagsKept_buffered j)).value v, (rereads (hj.mono fun _ h => h.tagsKept)).value v⟩
  rw [hsame hj, hsame (spelled_reordered h hj), denotes_reordered h]

end

end Value

namespace Message

/-- One of the keys stands once in the object, with the value `j`, and the others do not. -/
def OnceIn (ks : List String) (j : Json) (fs : List (String × Json)) : Prop :=
  ∃ pre k post, fs = pre ++ (k, j) :: post ∧ k ∈ ks ∧ ∀ f ∈ pre ++ post, f.1 ∉ ks

section
variable {P : Platform} {ks : List String} {fs gs : List (String × Json)} {j : Json}

theorem onceIn_singleton {k : String} : OnceIn [k] j fs ↔ Once k j fs := by
  simp only [OnceIn, Once, List.mem_singleton]
  refine ⟨?_, ?_⟩
  · intro h
    obtain ⟨pre, _, post, hfs, rfl, hne⟩ := h
    exact ⟨pre, post, hfs, hne⟩
  · intro h
    obtain ⟨pre, post, hfs, hne⟩ := h
    exact ⟨pre, k, post, hfs, rfl, hne⟩

theorem onceIn_in {k : String} (hk : k ∈ ks) {j' : Json} :
    OnceIn ks j' ((k, j) :: fs) ↔ j = j' ∧ ∀ f ∈ fs, f.1 ∉ ks := by
  refine ⟨?_, ?_⟩
  · rintro ⟨pre, k', post, hfs, hk', hne⟩
    cases pre with
    | nil =>
      obtain ⟨hhead, rfl⟩ := List.cons.inj hfs
      exact ⟨(Prod.mk.inj hhead).2, hne⟩
    | cons f pre =>
      obtain ⟨rfl, rfl⟩ := List.cons.inj hfs
      exact absurd hk (hne (k, j) (by simp))
  · rintro ⟨rfl, hne⟩
    exact ⟨[], k, fs, rfl, hk, hne⟩

theorem onceIn_out {k : String} (hk : k ∉ ks) {j' : Json} :
    OnceIn ks j' ((k, j) :: fs) ↔ OnceIn ks j' fs := by
  refine ⟨?_, ?_⟩
  · rintro ⟨pre, k', post, hfs, hk', hne⟩
    cases pre with
    | nil =>
      obtain ⟨hhead, -⟩ := List.cons.inj hfs
      exact absurd ((Prod.mk.inj hhead).1 ▸ hk') hk
    | cons f pre =>
      obtain ⟨rfl, rfl⟩ := List.cons.inj hfs
      exact ⟨pre, k', post, rfl, hk', fun f hf => hne f (List.mem_cons_of_mem _ hf)⟩
  · rintro ⟨pre, k', post, rfl, hk', hne⟩
    exact ⟨(k, j) :: pre, k', post, rfl, hk', List.forall_mem_cons.mpr ⟨hk, hne⟩⟩

theorem onceIn_unique {j' : Json} (h : OnceIn ks j fs) (h' : OnceIn ks j' fs) : j = j' := by
  induction fs with
  | nil =>
    obtain ⟨pre, k, post, hfs, -⟩ := h
    simp at hfs
  | cons f fs ih =>
    obtain ⟨k, x⟩ := f
    by_cases hk : k ∈ ks
    · exact ((onceIn_in hk).mp h).1.symm.trans ((onceIn_in hk).mp h').1
    · exact ih ((onceIn_out hk).mp h) ((onceIn_out hk).mp h')

theorem onceIn_iff_perm :
    OnceIn ks j fs ↔ ∃ k rest, fs.Perm ((k, j) :: rest) ∧ k ∈ ks ∧ ∀ f ∈ rest, f.1 ∉ ks := by
  refine ⟨?_, ?_⟩
  · rintro ⟨pre, k, post, rfl, hk, hne⟩
    exact ⟨k, pre ++ post, List.perm_middle, hk, hne⟩
  · rintro ⟨k, rest, hp, hk, hne⟩
    obtain ⟨pre, post, rfl, hp'⟩ := exists_split hp
    exact ⟨pre, k, post, rfl, hk, fun f hf => hne f (hp'.mem_iff.mp hf)⟩

theorem onceIn_perm (h : fs.Perm gs) : OnceIn ks j fs ↔ OnceIn ks j gs := by
  simp only [onceIn_iff_perm]
  exact ⟨fun ⟨k, rest, hp, hrest⟩ => ⟨k, rest, h.symm.trans hp, hrest⟩,
    fun ⟨k, rest, hp, hrest⟩ => ⟨k, rest, h.trans hp, hrest⟩⟩

/-- A field with another key may go. -/
theorem onceIn_remove {k : String} {j' : Json} (hk : k ∉ ks) (pre post : List (String × Json)) :
    OnceIn ks j' (pre ++ (k, j) :: post) ↔ OnceIn ks j' (pre ++ post) :=
  (onceIn_perm List.perm_middle).trans (onceIn_out hk)

theorem onceIn_reordered {s : String} (h : OnceIn ks (.str s) fs) (hr : Reordered (.obj fs) (.obj gs)) :
    OnceIn ks (.str s) gs := by
  obtain ⟨k, rest, hp, hk, hne⟩ := onceIn_iff_perm.mp h
  obtain ⟨_, gs', hobj, hp', hsame⟩ := hr.fields hp
  obtain rfl := Json.obj.inj hobj
  obtain ⟨⟨_, j⟩, rest', ⟨rfl, hj⟩, hrest', rfl⟩ := List.forall₂_cons_left_iff.mp hsame
  cases hj with
  | str =>
    exact onceIn_iff_perm.mpr ⟨k, rest', hp'.symm, hk, forall_keys (p := (· ∉ ks)) hrest' hne⟩

/-- What is left to find of one of the strings of a struct. -/
def Fills (ks : List String) : Option String → List (String × Json) → String → Prop
  | some s, fs, a => s = a ∧ ∀ f ∈ fs, f.1 ∉ ks
  | none, fs, a => OnceIn ks (.str a) fs

theorem fills_out {k : String} (hk : k ∉ ks) {o : Option String} {a : String} :
    Fills ks o ((k, j) :: fs) a ↔ Fills ks o fs a := by
  cases o with
  | some s => simp [Fills, hk]
  | none => exact onceIn_out hk

theorem fills_in {k : String} (hk : k ∈ ks) {a : String} :
    Fills ks none ((k, j) :: fs) a ↔ j = .str a ∧ ∀ f ∈ fs, f.1 ∉ ks := onceIn_in hk

theorem fills_twice {k s : String} (hk : k ∈ ks) {a : String} : ¬ Fills ks (some s) ((k, j) :: fs) a :=
  fun h => h.2 (k, j) List.mem_cons_self hk

theorem visitStrings_iff {f g : String × List String} (hd : ∀ k ∈ f.1 :: f.2, k ∉ g.1 :: g.2)
    {x y : Option String} {a b : String} : visitStrings f g x y fs = .ok (a, b) ↔
      Fills (f.1 :: f.2) x fs a ∧ Fills (g.1 :: g.2) y fs b := by
  induction fs generalizing x y with
  | nil =>
    cases x <;> cases y <;> simp [visitStrings, Fills, OnceIn]
  | cons h fs ih =>
    obtain ⟨k, j⟩ := h
    by_cases hf : k ∈ f.1 :: f.2
    · have hg := hd k hf
      rw [visitStrings, if_pos (List.mem_cons.mp hf), fills_out hg]
      cases x with
      | some s => simp [fills_twice hf]
      | none =>
        rw [fills_in hf]
        cases j with
        | str s =>
          have hfill := ih (x := some s) (y := y)
          simpa [readString, Fills] using hfill
        | _ => simp [readString]
    · rw [visitStrings, if_neg (mt List.mem_cons.mpr hf), fills_out hf]
      by_cases hg : k ∈ g.1 :: g.2
      · rw [if_pos (List.mem_cons.mp hg)]
        cases y with
        | some s => simp [fills_twice hg]
        | none =>
          rw [fills_in hg]
          cases j with
          | str s =>
            have hfill := ih (x := x) (y := some s)
            simpa [readString, Fills] using hfill
          | _ => simp [readString]
      · rw [if_neg (mt List.mem_cons.mpr hg), fills_out hg]
        exact ih

/-- The message that an object stands for, whatever the order of its fields. -/
inductive Reads (P : Platform) (fs : List (String × Json)) : Message → Prop
  | ack {endpoint version : String} (ht : OnceIn [typeKey] (.str "ack") fs)
    (he : OnceIn ["endpoint"] (.str endpoint) fs) (hv : OnceIn ["version"] (.str version) fs) :
    Reads P fs (.ack endpoint version)
  | error {code context : String} (ht : OnceIn [typeKey] (.str "error") fs)
    (hc : OnceIn ["code"] (.str code) fs) (hm : OnceIn ["context", "message"] (.str context) fs) :
    Reads P fs (.error code context)
  | dataMessage {topic : String} {v : Value} (ht : OnceIn [typeKey] (.str "data-message") fs)
    (hs : OnceIn ["topic"] (.str topic) fs) (hv : Value.Denotes P true (.obj fs) v) :
    Reads P fs (.dataMessage topic (.ofValue v))

theorem readTag_eq_ok {t : Tag} : readTag j = .ok t ↔ j = .str t.name := by
  refine ⟨?_, ?_⟩
  · intro h
    cases j with
    | str s =>
      simp only [readTag, Tag.fromStr] at h
      split at h <;> first | (obtain rfl := Outcome.ok.inj h; rfl) | simp at h
    | _ => simp [readTag] at h
  · rintro rfl
    cases t <;> rfl

theorem visitDataMessage_iff {pre post : List (String × Json)} {m : Message} :
    visitDataMessage P none [] (pre ++ post) = .ok m ↔ ∃ topic v,
      OnceIn ["topic"] (.str topic) (pre ++ (typeKey, j) :: post) ∧
      Value.Denotes P true (.obj (pre ++ (typeKey, j) :: post)) v ∧ m = .dataMessage topic (.ofValue v) := by
  simp only [onceIn_remove (show typeKey ∉ ["topic"] by decide), onceIn_singleton]
  rcases visitDataMessage_cases P [] (pre ++ post) with
    ⟨topic, pre', post', heq, hne, hread⟩ | ⟨hno, e, he⟩
  · have hmap : Value.decode P true (.obj (pre ++ (typeKey, j) :: post)) =
        Value.visitMap P true (pre' ++ post') := by
      rw [Value.decode, Value.visitMap_remove P true (by decide) (by decide), heq,
        Value.visitMap_remove P true (by decide) (by decide)]
    have honce : Once "topic" (.str topic) (pre ++ post) := ⟨pre', post', heq, hne⟩
    rw [hread, List.nil_append, readPayload, ← hmap, Outcome.bind_eq_ok]
    simp only [Value.decode_eq_ok, Outcome.ok.injEq]
    refine ⟨?_, ?_⟩
    · intro h
      obtain ⟨v, hv, hm⟩ := h
      exact ⟨topic, v, honce, hv, hm.symm⟩
    · intro h
      obtain ⟨topic', v, honce', hv, hm⟩ := h
      obtain ⟨rfl⟩ := onceIn_unique (onceIn_singleton.mpr honce) (onceIn_singleton.mpr honce')
      exact ⟨v, hv, hm.symm⟩
  · simp only [he, reduceCtorEq, false_iff, not_exists, not_and]
    exact fun topic v honce => absurd ⟨topic, honce⟩ hno

theorem takeTag_iff {t : Tag} {content : List (String × Json)} :
    takeTag none [] fs = .ok (t, content) ↔ ∃ pre post, fs = pre ++ (typeKey, .str t.name) :: post ∧
      (∀ f ∈ pre ++ post, f.1 ≠ typeKey) ∧ content = pre ++ post := by
  rw [takeTag_none]
  simp only [readTag_eq_ok, List.nil_append]
  exact ⟨fun ⟨pre, _, post, hfs, hne, hj, hc⟩ => ⟨pre, post, hj ▸ hfs, hne, hc⟩,
    fun ⟨pre, post, hfs, hne, hc⟩ => ⟨pre, _, post, hfs, hne, rfl, hc⟩⟩

theorem visitAck_iff {endpoint version : String} : visitAck fs = .ok (endpoint, version) ↔
    OnceIn ["endpoint"] (.str endpoint) fs ∧ OnceIn ["version"] (.str version) fs :=
  visitStrings_iff (by decide)

theorem visitError_iff {code context : String} : visitError fs = .ok (code, context) ↔
    OnceIn ["code"] (.str code) fs ∧ OnceIn ["context", "message"] (.str context) fs :=
  visitStrings_iff (by decide)

theorem decode_obj_iff {m : Message} : decode P (.obj fs) = .ok m ↔ Reads P fs m := by
  have hremove : ∀ (ks : List String) (pre post : List (String × Json)) (x y : Json), typeKey ∉ ks →
      (OnceIn ks y (pre ++ (typeKey, x) :: post) ↔ OnceIn ks y (pre ++ post)) :=
    fun ks pre post x y hk => onceIn_remove hk pre post
  refine ⟨?_, ?_⟩
  · intro h
    obtain ⟨⟨t, content⟩, htag, h⟩ := Outcome.bind_eq_ok.mp h
    obtain ⟨pre, post, rfl, hne, rfl⟩ := takeTag_iff.mp htag
    have ht : OnceIn [typeKey] (.str t.name) (pre ++ (typeKey, .str t.name) :: post) :=
      onceIn_singleton.mpr ⟨pre, post, rfl, hne⟩
    cases t with
    | ack =>
      obtain ⟨⟨endpoint, version⟩, hvisit, h⟩ := Outcome.bind_eq_ok.mp h
      obtain rfl := Outcome.ok.inj h
      obtain ⟨he, hv⟩ := visitAck_iff.mp hvisit
      exact .ack ht ((hremove _ _ _ _ _ (by decide)).mpr he) ((hremove _ _ _ _ _ (by decide)).mpr hv)
    | error =>
      obtain ⟨⟨code, context⟩, hvisit, h⟩ := Outcome.bind_eq_ok.mp h
      obtain rfl := Outcome.ok.inj h
      obtain ⟨hc, hm⟩ := visitError_iff.mp hvisit
      exact .error ht ((hremove _ _ _ _ _ (by decide)).mpr hc) ((hremove _ _ _ _ _ (by decide)).mpr hm)
    | dataMessage =>
      obtain ⟨topic, v, hs, hv, rfl⟩ := visitDataMessage_iff.mp h
      exact .dataMessage ht hs hv
  · intro h
    have htag : ∀ t : Tag, OnceIn [typeKey] (.str t.name) fs → ∃ pre post,
        fs = pre ++ (typeKey, .str t.name) :: post ∧ takeTag none [] fs = .ok (t, pre ++ post) := by
      intro t ht
      obtain ⟨pre, post, rfl, hne⟩ := onceIn_singleton.mp ht
      exact ⟨pre, post, rfl, takeTag_iff.mpr ⟨pre, post, rfl, hne, rfl⟩⟩
    cases h with
    | ack ht he hv =>
      obtain ⟨pre, post, rfl, htake⟩ := htag .ack ht
      have hvisit := visitAck_iff.mpr ⟨(hremove _ _ _ _ _ (by decide)).mp he,
        (hremove _ _ _ _ _ (by decide)).mp hv⟩
      rw [decode, htake, Outcome.ok_bind]
      simp [hvisit]
    | error ht hc hm =>
      obtain ⟨pre, post, rfl, htake⟩ := htag .error ht
      have hvisit := visitError_iff.mpr ⟨(hremove _ _ _ _ _ (by decide)).mp hc,
        (hremove _ _ _ _ _ (by decide)).mp hm⟩
      rw [decode, htake, Outcome.ok_bind]
      simp [hvisit]
    | dataMessage ht hs hv =>
      obtain ⟨pre, post, rfl, htake⟩ := htag .dataMessage ht
      rw [decode, htake, Outcome.ok_bind]
      exact visitDataMessage_iff.mpr ⟨_, _, hs, hv, rfl⟩

theorem Reads.reordered {m : Message} (h : Reads P fs m) (hr : Reordered (.obj fs) (.obj gs)) :
    Reads P gs m := by
  cases h with
  | ack ht he hv => exact .ack (onceIn_reordered ht hr) (onceIn_reordered he hr) (onceIn_reordered hv hr)
  | error ht hc hm =>
    exact .error (onceIn_reordered ht hr) (onceIn_reordered hc hr) (onceIn_reordered hm hr)
  | dataMessage ht hs hv =>
    exact .dataMessage (onceIn_reordered ht hr) (onceIn_reordered hs hr)
      ((Value.denotes_reordered hr).mp hv)

theorem readString_reordered {j k : Json} (h : Reordered j k) : readString k = readString j := by
  cases h <;> rfl

theorem readTag_same {j k : Json} (h : Reordered j k) : readTag k = readTag j := by
  cases h <;> rfl

theorem visitStringsSeq_reordered {js ks : List Json} (h : List.Forall₂ Reordered js ks) :
    visitStringsSeq ks = visitStringsSeq js := by
  match h with
  | .nil => rfl
  | .cons h1 .nil => rw [visitStringsSeq, visitStringsSeq, readString_reordered h1]
  | .cons h1 (.cons h2 hrest) =>
    rw [visitStringsSeq, visitStringsSeq, readString_reordered h1, readString_reordered h2]
    cases hrest with
    | nil => rfl
    | cons _ hrest => simp [hrest.length_eq]

/-- An array has no fields, and its strings stay where they are. -/
theorem decode_arr_reordered {js ks : List Json} (h : List.Forall₂ Reordered js ks) :
    decode P (.arr ks) = decode P (.arr js) := by
  cases h with
  | nil => rfl
  | cons hj hjs => rw [decode, decode, readTag_same hj, visitStringsSeq_reordered hjs]

theorem decode_arr_ne_dataMessage (js : List Json) {topic : String} {data : Data} :
    decode P (.arr js) ≠ .ok (.dataMessage topic data) := by
  cases js with
  | nil => simp [decode]
  | cons j js =>
    intro h
    obtain ⟨t, -, h⟩ := Outcome.bind_eq_ok.mp h
    cases t <;> simp [Outcome.bind_eq_ok] at h

theorem decode_reordered {k : Json} (h : Reordered j k) {m : Message} :
    decode P j = .ok m ↔ decode P k = .ok m := by
  cases h with
  | arr hs => rw [decode_arr_reordered hs]
  | obj hk hv hp =>
    rw [decode_obj_iff, decode_obj_iff]
    exact ⟨fun hm => hm.reordered (.obj hk hv hp), fun hm => hm.reordered (Reordered.symm (.obj hk hv hp))⟩
  | _ => rfl

end

end Message

theorem Value.canonical_of_denotes {P : Platform} {buf : Bool} {j : Json} {v : Value}
    (h : Value.Denotes P buf j v) : v.Canonical := by
  refine Value.forall_parts_of_denotes (fun t c v hv => ?_) (fun _ => trivial)
    (fun vs => collectBy_ascending (fun _ _ => .inl rfl) vs) (fun es => collectBy_ascending keepNew_picks es) h
  have hleaf := Value.decodeLeaf_discriminant hv
  cases v with
  | set xs => simp [Value.discriminant] at hleaf
  | table es => simp [Value.discriminant] at hleaf
  | _ => trivial

/-- The readers accept the documents of the format and no others, a document stands for one value or
none, and the sets and tables that come out are ones that a B-tree can hold. -/
theorem format_exact (P : Platform) (j : Json) :
    (∀ v, Value.decode P false j = .ok v ↔ Value.Denotes P false j v) ∧
      (∀ v w, Value.Denotes P false j v → Value.Denotes P false j w → v = w) ∧
      (∀ v, Value.Denotes P false j v → v.Canonical) ∧
      (∀ fs m, j = .obj fs → (Message.decode P j = .ok m ↔ Message.Reads P fs m)) ∧
      ∀ topic data, Message.decode P j = .ok (.dataMessage topic data) →
        ∃ v, Value.Denotes P true j v ∧ v.Canonical ∧ data = .ofValue v := by
  refine ⟨fun v => Value.decode_eq_ok, fun v w hv hw => ?_, fun v => Value.canonical_of_denotes,
    fun fs m hj => hj ▸ Message.decode_obj_iff, fun topic data hd => ?_⟩
  · exact Outcome.ok.inj ((Value.decode_eq_ok.mpr hv).symm.trans (Value.decode_eq_ok.mpr hw))
  · cases j with
    | obj fs =>
      cases Message.decode_obj_iff.mp hd with
      | dataMessage _ _ hv => exact ⟨_, hv, Value.canonical_of_denotes hv, rfl⟩
    | arr js => exact absurd hd (Message.decode_arr_ne_dataMessage js)
    | _ => simp [Message.decode] at hd

/-- The order in which a peer writes the fields of objects does not matter. A value alone is read in
any order too, unless a tag has the spelling that a buffer alone takes. -/
theorem field_order (P : Platform) (j k : Json) (h : Reordered j k) :
    (∀ m, Message.decode P j = .ok m ↔ Message.decode P k = .ok m) ∧
      (∀ v, Value.decode P false j = .ok v → Value.decode P true k = .ok v) ∧
      (Value.Throughout Value.Spelled j →
        ∀ v, Value.decode P false j = .ok v ↔ Value.decode P false k = .ok v) := by
  simp only [Value.decode_eq_ok]
  refine ⟨fun m => Message.decode_reordered h, fun v hv => ?_, fun hj v => Value.denotes_spelled h hj⟩
  exact (Value.denotes_reordered h).mp
    ((Value.rereads (Value.throughout Value.tagsKept_buffered j)).value v hv)

/-- A data message as this crate writes it. -/
def written : Json := .obj [("type", .str "data-message"), ("topic", .str "/ping"),
  ("@data-type", .str "count"), ("data", .num (.posInt 1))]

/-- The same with the fields the other way round. -/
def backwards : Json := .obj [("data", .num (.posInt 1)), ("@data-type", .str "count"),
  ("topic", .str "/ping"), ("type", .str "data-message")]

theorem backwards_read :
    Message.decode Sample.utcPlatform backwards = .ok (.dataMessage "/ping" (.other (.count 1))) := by
  have hr : Reordered written backwards := .obj rfl (List.forall₂_same.mpr fun j _ => .refl j)
    (List.reverse_perm _).symm
  exact ((field_order Sample.utcPlatform written backwards hr).1 _).mp rfl

/-- A vector whose element has the tag `{"count": {}}`, with its own tag behind. -/
def contentFirst : Json := .obj [("data", .arr [.obj [("@data-type", .obj [("count", .obj [])]),
  ("data", .num (.posInt 1))]]), ("@data-type", .str "vector")]

def tagFirst : Json := .obj [("@data-type", .str "vector"), ("data", .arr [.obj
  [("@data-type", .obj [("count", .obj [])]), ("data", .num (.posInt 1))]])]

example (P : Platform) : Value.decode P false contentFirst = .ok (.vector [.count 1]) ∧
    Value.decode P false tagFirst = .err .invalidType := ⟨rfl, rfl⟩

end ZWS
