import ZeekWebSocket.Sanity.Equal
import ZeekWebSocket.Sanity.Reader
import ZeekWebSocket.Spec.Message

/-! Events as values, which values are taken for events and what the recogniser does with
equal values; and the fields of a message, which of them its readers look at. -/

namespace ZWS

open Base

namespace Value

theorem asVector_eq_some {v : Value} {xs : List Value} : v.asVector = some xs ↔ v = .vector xs := by
  cases v <;> simp [asVector]

theorem asCount_eq_some {v : Value} {n : UInt64} : v.asCount = some n ↔ v = .count n := by
  cases v <;> simp [asCount]

theorem asString_eq_some {v : Value} {s : String} : v.asString = some s ↔ v = .string s := by
  cases v <;> simp [asString]

end Value

namespace Data

/-- A vector with the event type in second place and a name with arguments in third place. -/
def EventShaped (v : Value) : Prop :=
  ∃ x name args rest more,
    v = .vector (x :: .count eventType :: .vector (.string name :: .vector args :: rest) :: more)

theorem eventOf_eq_some {v : Value} {e : Event} :
    eventOf v = some e ↔ ∃ x rest more,
      v = .vector (x :: .count eventType ::
        .vector (.string e.name :: .vector e.args :: rest) :: more) ∧
      e.metadata = metadataOf rest.head? := by
  refine ⟨?_, ?_⟩
  · intro h
    simp only [eventOf, Option.bind_eq_bind, Option.bind_eq_some_iff, Option.guard_eq_some', Option.pure_def,
      Option.some.injEq, Value.asVector_eq_some, Value.asCount_eq_some, Value.asString_eq_some] at h
    obtain ⟨xs, rfl, t, ⟨w, hw, rfl⟩, -, rfl, data, ⟨w', hw', rfl⟩, name, ⟨s, hs, rfl⟩, args,
      ⟨a, ha, rfl⟩, rfl⟩ := h
    obtain ⟨x, more, rfl⟩ : ∃ x more, xs = x :: .count eventType :: .vector data :: more := by
      match xs with
      | x :: y :: z :: more => simp_all
      | [] | [_] | [_, _] => simp at hw'
    obtain ⟨rest, rfl⟩ : ∃ rest, data = .string name :: .vector args :: rest := by
      match data with
      | x :: y :: rest => simp_all
      | [] | [_] => simp at ha
    refine ⟨x, rest, more, rfl, ?_⟩
    cases rest <;> rfl
  · intro hsome
    obtain ⟨x, rest, more, rfl, hm⟩ := hsome
    obtain ⟨name, args, metadata⟩ := e
    obtain rfl : metadata = metadataOf rest.head? := hm
    cases rest <;> rfl

theorem eventOf_isSome {v : Value} : (∃ e, eventOf v = some e) ↔ EventShaped v := by
  simp only [eventOf_eq_some]
  refine ⟨?_, ?_⟩
  · intro h
    obtain ⟨e, x, rest, more, rfl, -⟩ := h
    exact ⟨x, e.name, e.args, rest, more, rfl⟩
  · intro h
    obtain ⟨x, name, args, rest, more, rfl⟩ := h
    exact ⟨⟨name, args, metadataOf rest.head?⟩, x, rest, more, rfl, rfl⟩

theorem ofValue_of_not_eventShaped {v : Value} (h : ¬ EventShaped v) : ofValue v = .other v := by
  have hnone : eventOf v = none := Option.eq_none_iff_forall_ne_some.mpr fun e he =>
    h (eventOf_isSome.mp ⟨e, he⟩)
  rw [ofValue, hnone]

theorem ofValue_of_eventShaped {v : Value} (h : EventShaped v) :
    ∃ e, eventOf v = some e ∧ ofValue v = .event e := by
  obtain ⟨e, he⟩ := eventOf_isSome.mpr h
  exact ⟨e, he, by rw [ofValue, he]⟩

/-- The recogniser finds every event in the value it was turned into. -/
theorem ofValue_toValue (e : Event) : ofValue (toValue (.event e)) = .event e := rfl

end Data

/-- `==` on events. -/
def Event.Equal (e f : Event) : Prop :=
  e.name = f.name ∧ List.Forall₂ Value.Equal e.args f.args ∧
    List.Forall₂ Value.Equal e.metadata f.metadata

/-- `==` on payloads. -/
def Data.Equal : Data → Data → Prop
  | .event e, .event f => e.Equal f
  | .other v, .other w => v.Equal w
  | _, _ => False

/-- `==` on messages. -/
def Message.Equal : Message → Message → Prop
  | .ack endpoint version, .ack endpoint' version' => endpoint = endpoint' ∧ version = version'
  | .error code context, .error code' context' => code = code' ∧ context = context'
  | .dataMessage topic data, .dataMessage topic' data' => topic = topic' ∧ data.Equal data'
  | _, _ => False

namespace Data

theorem metadataOf_equal {xs ys : List Value} (h : List.Forall₂ Value.Equal xs ys) :
    List.Forall₂ Value.Equal (metadataOf xs.head?) (metadataOf ys.head?) := by
  cases h with
  | nil => exact .nil
  | @cons x y xs ys hxy _ =>
    cases x with
    | vector zs =>
      obtain ⟨ws, rfl, hzw⟩ := Value.equal_vector.mp hxy
      exact hzw
    | _ =>
      have hd := hxy.discriminant
      cases y <;> first
        | (simp [Value.discriminant] at hd; done)
        | exact .cons hxy .nil

/-- Equal values are taken for equal events. -/
theorem eventOf_equal {v w : Value} (h : Value.Equal v w) {e : Event} (he : eventOf v = some e) :
    ∃ f, eventOf w = some f ∧ e.Equal f := by
  obtain ⟨x, rest, more, rfl, hm⟩ := eventOf_eq_some.mp he
  obtain ⟨ys, rfl, hys⟩ := Value.equal_vector.mp h
  obtain ⟨y, ys', -, hys', rfl⟩ := List.forall₂_cons_left_iff.mp hys
  obtain ⟨t, ys'', ht, hys'', rfl⟩ := List.forall₂_cons_left_iff.mp hys'
  obtain ⟨d, more', hd, -, rfl⟩ := List.forall₂_cons_left_iff.mp hys''
  obtain rfl := Value.equal_count.mp ht
  obtain ⟨ds, rfl, hds⟩ := Value.equal_vector.mp hd
  obtain ⟨n, ds', hn, hds', rfl⟩ := List.forall₂_cons_left_iff.mp hds
  obtain ⟨a, rest', ha, hrest, rfl⟩ := List.forall₂_cons_left_iff.mp hds'
  obtain rfl := Value.equal_string.mp hn
  obtain ⟨args, rfl, hargs⟩ := Value.equal_vector.mp ha
  refine ⟨⟨e.name, args, metadataOf rest'.head?⟩, eventOf_eq_some.mpr ⟨y, rest', more', rfl, rfl⟩,
    rfl, hargs, ?_⟩
  rw [hm]
  exact metadataOf_equal hrest

theorem ofValue_equal {v w : Value} (h : Value.Equal v w) : (ofValue v).Equal (ofValue w) := by
  by_cases hv : EventShaped v
  · obtain ⟨e, he, heq⟩ := ofValue_of_eventShaped hv
    obtain ⟨f, hf, hef⟩ := eventOf_equal h he
    rw [heq, ofValue, hf]
    exact hef
  · have hw : ¬ EventShaped w := fun hw => by
      obtain ⟨f, hf⟩ := eventOf_isSome.mpr hw
      obtain ⟨e, he, -⟩ := eventOf_equal h.symm hf
      exact hv (eventOf_isSome.mp ⟨e, he⟩)
    rw [ofValue_of_not_eventShaped hv, ofValue_of_not_eventShaped hw]
    exact h

end Data

/-- The key `k` stands once in the object, with the value `j`. -/
def Once (k : String) (j : Json) (fs : List (String × Json)) : Prop :=
  ∃ pre post, fs = pre ++ (k, j) :: post ∧ ∀ f ∈ pre ++ post, f.1 ≠ k

theorem once_cons {k : String} {j j' : Json} {fs : List (String × Json)} :
    Once k j' ((k, j) :: fs) ↔ j = j' ∧ ∀ f ∈ fs, f.1 ≠ k := by
  refine ⟨?_, ?_⟩
  · intro h
    obtain ⟨pre, post, heq, hne⟩ := h
    cases pre with
    | nil =>
      obtain ⟨hj, rfl⟩ := List.cons.inj heq
      exact ⟨congrArg Prod.snd hj, hne⟩
    | cons g pre =>
      obtain ⟨rfl, -⟩ := List.cons.inj heq
      exact absurd rfl (hne (k, j) (by simp))
  · intro h
    obtain ⟨rfl, hne⟩ := h
    exact ⟨[], fs, rfl, hne⟩

theorem once_cons_other {k : String} {j : Json} {f : String × Json} {fs : List (String × Json)}
    (hf : f.1 ≠ k) : Once k j (f :: fs) ↔ Once k j fs := by
  refine ⟨?_, ?_⟩
  · intro h
    obtain ⟨pre, post, heq, hne⟩ := h
    cases pre with
    | nil =>
      obtain ⟨rfl, -⟩ := List.cons.inj heq
      exact absurd rfl hf
    | cons g pre =>
      obtain ⟨rfl, rfl⟩ := List.cons.inj heq
      exact ⟨pre, post, rfl, (List.forall_mem_cons.mp hne).2⟩
  · intro h
    obtain ⟨pre, post, rfl, hne⟩ := h
    exact ⟨f :: pre, post, rfl, List.forall_mem_cons.mpr ⟨hf, hne⟩⟩

theorem once_remove {k : String} {j : Json} {f : String × Json} (hf : f.1 ≠ k)
    (pre post : List (String × Json)) : Once k j (pre ++ f :: post) ↔ Once k j (pre ++ post) := by
  induction pre with
  | nil => exact once_cons_other hf
  | cons g pre ih =>
    obtain ⟨k', j'⟩ := g
    by_cases hk : k' = k
    · subst hk
      simp only [List.cons_append, once_cons, List.forall_mem_append, List.forall_mem_cons]
      tauto
    · rw [List.cons_append, List.cons_append, once_cons_other hk, once_cons_other hk, ih]

namespace Message

theorem takeTag_some {t t' : Tag} {content content' fs : List (String × Json)} :
    takeTag (some t) content fs = .ok (t', content') ↔
      (∀ f ∈ fs, f.1 ≠ typeKey) ∧ t' = t ∧ content' = content ++ fs := by
  induction fs generalizing content with
  | nil => simp [takeTag, eq_comm]
  | cons f fs ih =>
    by_cases h : f.1 = typeKey
    · simp [takeTag, h]
    · simp [takeTag, h, ih]

theorem takeTag_none {t : Tag} {content content' fs : List (String × Json)} :
    takeTag none content fs = .ok (t, content') ↔ ∃ pre j post, fs = pre ++ (typeKey, j) :: post ∧
      (∀ f ∈ pre ++ post, f.1 ≠ typeKey) ∧ readTag j = .ok t ∧
        content' = content ++ (pre ++ post) := by
  induction fs generalizing content with
  | nil => simp [takeTag]
  | cons f fs ih =>
    obtain ⟨k, j⟩ := f
    by_cases h : k = typeKey
    · subst h
      simp only [takeTag, if_true, Option.isSome_none, Bool.false_eq_true, if_false,
        Outcome.bind_eq_ok, takeTag_some]
      refine ⟨?_, ?_⟩
      · intro hsome
        obtain ⟨t', ht, hfs, rfl, rfl⟩ := hsome
        exact ⟨[], j, fs, rfl, hfs, ht, rfl⟩
      · intro hsome
        obtain ⟨pre, j', post, heq, hne, ht, rfl⟩ := hsome
        cases pre with
        | nil =>
          obtain ⟨⟨-, rfl⟩, rfl⟩ : (True ∧ j = j') ∧ fs = post := by simpa using heq
          exact ⟨t, ht, hne, rfl, rfl⟩
        | cons g pre =>
          obtain ⟨rfl, -⟩ := List.cons.inj heq
          exact absurd rfl (hne (typeKey, j) (by simp))
    · simp only [takeTag, h, if_false, ih]
      refine ⟨?_, ?_⟩
      · intro hsome
        obtain ⟨pre, j', post, rfl, hne, ht, rfl⟩ := hsome
        exact ⟨(k, j) :: pre, j', post, rfl, List.forall_mem_cons.mpr ⟨h, hne⟩, ht, by simp⟩
      · intro hsome
        obtain ⟨pre, j', post, heq, hne, ht, rfl⟩ := hsome
        cases pre with
        | nil =>
          obtain ⟨⟨rfl, -⟩, -⟩ : (k = typeKey ∧ j = j') ∧ fs = post := by simpa using heq
          exact absurd rfl h
        | cons g pre =>
          obtain ⟨rfl, rfl⟩ := List.cons.inj heq
          exact ⟨pre, j', post, rfl, (List.forall_mem_cons.mp hne).2, ht, by simp⟩

theorem readTag_ne_panic (j : Json) : readTag j ≠ .panic := by
  unfold readTag Tag.fromStr
  split
  · split <;> simp
  · simp

theorem takeTag_ne_panic (tag : Option Tag) (content fs : List (String × Json)) :
    takeTag tag content fs ≠ .panic := by
  induction fs generalizing tag content with
  | nil => cases tag <;> simp [takeTag]
  | cons f fs ih =>
    simp only [takeTag]
    split_ifs
    · simp
    · simp [Outcome.bind_eq_panic, readTag_ne_panic, ih]
    · exact ih _ _

theorem readString_ne_panic (j : Json) : readString j ≠ .panic := by
  cases j <;> simp [readString]

theorem visitStrings_ne_panic (f g : String × List String) (a b : Option String)
    (fs : List (String × Json)) : visitStrings f g a b fs ≠ .panic := by
  induction fs generalizing a b with
  | nil => cases a <;> cases b <;> simp [visitStrings]
  | cons h fs ih =>
    simp only [visitStrings]
    split_ifs <;> simp [Outcome.bind_eq_panic, readString_ne_panic, ih]

theorem visitStringsSeq_ne_panic (js : List Json) : visitStringsSeq js ≠ .panic := by
  match js with
  | [] => simp [visitStringsSeq]
  | [a] => simp [visitStringsSeq, Outcome.bind_eq_panic, readString_ne_panic]
  | a :: b :: rest =>
    simp only [visitStringsSeq]
    split <;> simp [Outcome.bind_eq_panic, readString_ne_panic]

section
variable (P : Platform)

/-- What is left to read once the topic is known. -/
def readPayload (topic : String) (fs : List (String × Json)) : Outcome DecodeError Message :=
  Value.visitMap P true fs >>= fun v => .ok (.dataMessage topic (.ofValue v))

theorem visitDataMessage_some {topic : String} (collect : List (String × Json))
    {fs : List (String × Json)} (h : ∀ f ∈ fs, f.1 ≠ "topic") :
    visitDataMessage P (some topic) collect fs = readPayload P topic (collect ++ fs) := by
  induction fs generalizing collect with
  | nil =>
    have hk := Value.visitMap_keyed P true collect
    rw [visitDataMessage, List.append_nil, readPayload, ← hk]
    rfl
  | cons f fs ih =>
    obtain ⟨hf, hfs⟩ := List.forall_mem_cons.mp h
    rw [visitDataMessage, if_neg hf, ih _ hfs, List.append_assoc]
    rfl

theorem visitDataMessage_twice (topic : String) (collect : List (String × Json))
    {fs : List (String × Json)} (h : ¬ ∀ f ∈ fs, f.1 ≠ "topic") :
    ∃ e, visitDataMessage P (some topic) collect fs = .err e := by
  induction fs generalizing collect with
  | nil => simp at h
  | cons f fs ih =>
    rw [visitDataMessage]
    by_cases hf : f.1 = "topic"
    · rw [if_pos hf]
      exact ⟨_, rfl⟩
    · rw [if_neg hf]
      exact ih _ fun hfs => h (List.forall_mem_cons.mpr ⟨hf, hfs⟩)

/-- A data message is its payload if a topic stands in it once, and an error otherwise. -/
theorem visitDataMessage_cases (collect fs : List (String × Json)) :
    (∃ topic pre post, fs = pre ++ ("topic", .str topic) :: post ∧
      (∀ f ∈ pre ++ post, f.1 ≠ "topic") ∧
      visitDataMessage P none collect fs = readPayload P topic (collect ++ (pre ++ post))) ∨
    (¬ ∃ topic, Once "topic" (.str topic) fs) ∧ ∃ e, visitDataMessage P none collect fs = .err e := by
  induction fs generalizing collect with
  | nil => exact Or.inr ⟨by simp [Once], _, rfl⟩
  | cons f fs ih =>
    obtain ⟨k, j⟩ := f
    by_cases hk : k = "topic"
    · subst hk
      have hread : visitDataMessage P none collect (("topic", j) :: fs) =
          readString j >>= fun s => visitDataMessage P (some s) collect fs := by
        rw [visitDataMessage, if_pos rfl]
        rfl
      by_cases hfs : ∀ f ∈ fs, f.1 ≠ "topic"
      · cases j with
        | str s =>
          refine Or.inl ⟨s, [], fs, rfl, hfs, ?_⟩
          rw [hread, readString, Outcome.ok_bind, visitDataMessage_some P collect hfs]
          rfl
        | _ => exact Or.inr ⟨by simp [once_cons], .invalidType, hread⟩
      · have hno : ¬ ∃ s, Once "topic" (.str s) (("topic", j) :: fs) := by
          intro h
          obtain ⟨s, hs⟩ := h
          exact hfs (once_cons.mp hs).2
        refine Or.inr ⟨hno, ?_⟩
        rw [hread]
        cases hj : readString j with
        | ok s => exact visitDataMessage_twice P s collect hfs
        | err e => exact ⟨e, rfl⟩
        | panic => exact absurd hj (readString_ne_panic j)
    · have hskip : visitDataMessage P none collect ((k, j) :: fs) =
          visitDataMessage P none (collect ++ [(k, j)]) fs := by
        rw [visitDataMessage, if_neg hk]
      rcases ih (collect ++ [(k, j)]) with ⟨topic, pre, post, rfl, hne, heq⟩ | ⟨hno, e, he⟩
      · refine Or.inl ⟨topic, (k, j) :: pre, post, rfl, List.forall_mem_cons.mpr ⟨hk, hne⟩, ?_⟩
        rw [hskip, heq]
        simp
      · have hno' : ¬ ∃ s, Once "topic" (.str s) ((k, j) :: fs) := by
          intro h
          obtain ⟨s, hs⟩ := h
          exact hno ⟨s, (once_cons_other hk).mp hs⟩
        refine Or.inr ⟨hno', e, ?_⟩
        rw [hskip, he]

theorem readTag_eq_dataMessage {j : Json} : readTag j = .ok .dataMessage ↔ j = .str "data-message" := by
  refine ⟨?_, ?_⟩
  · intro h
    cases j with
    | str s =>
      simp only [readTag, Tag.fromStr] at h
      split at h <;> simp_all
    | _ => simp [readTag] at h
  · rintro rfl
    rfl

/-- A data message is its own object read as a value, whatever stands between its fields. -/
theorem decode_dataMessage_object {fs : List (String × Json)}
    (htype : Once typeKey (.str "data-message") fs)
    (htopic : ∃ topic, Once "topic" (.str topic) fs) :
    ∃ topic, decode P (.obj fs) =
      Value.decode P true (.obj fs) >>= fun v => .ok (.dataMessage topic (.ofValue v)) := by
  obtain ⟨pre, post, rfl, hne⟩ := htype
  have htag : takeTag none [] (pre ++ (typeKey, .str "data-message") :: post) =
      .ok (.dataMessage, pre ++ post) :=
    takeTag_none.mpr ⟨pre, _, post, rfl, hne, readTag_eq_dataMessage.mpr rfl, rfl⟩
  obtain ⟨s, hs⟩ := htopic
  have hs' := (once_remove (by decide) pre post).mp hs
  rcases visitDataMessage_cases P [] (pre ++ post) with
    ⟨topic, pre', post', heq, -, hread⟩ | ⟨hno, -⟩
  · refine ⟨topic, ?_⟩
    have hmap : Value.visitMap P true (pre' ++ post') =
        Value.visitMap P true (pre ++ (typeKey, .str "data-message") :: post) := by
      rw [Value.visitMap_remove P true (by decide) (by decide), heq,
        Value.visitMap_remove P true (by decide) (by decide)]
    rw [decode, htag, Outcome.ok_bind]
    simp only [hread, readPayload, List.nil_append, hmap, Value.decode]
  · exact absurd ⟨s, hs'⟩ hno

theorem decode_eq_panic_fields {fs : List (String × Json)} (h : decode P (.obj fs) = .panic) :
    Once typeKey (.str "data-message") fs ∧ ∃ topic, Once "topic" (.str topic) fs := by
  rw [decode, Outcome.bind_eq_panic] at h
  rcases h with h | ⟨⟨tag, content⟩, htag, h⟩
  · exact absurd h (takeTag_ne_panic _ _ _)
  · obtain ⟨pre, j, post, rfl, hne, hj, rfl⟩ := takeTag_none.mp htag
    cases tag with
    | ack => simp [visitAck, Outcome.bind_eq_panic, visitStrings_ne_panic] at h
    | error => simp [visitError, Outcome.bind_eq_panic, visitStrings_ne_panic] at h
    | dataMessage =>
      obtain rfl := readTag_eq_dataMessage.mp hj
      refine ⟨⟨pre, post, rfl, hne⟩, ?_⟩
      rcases visitDataMessage_cases P [] (pre ++ post) with
        ⟨topic, pre', post', heq, hne', -⟩ | ⟨-, e, he⟩
      · exact ⟨topic, (once_remove (by decide) pre post).mpr ⟨pre', post', heq, hne'⟩⟩
      · rw [List.nil_append] at h
        simp [he] at h

theorem decode_arr_ne_panic (js : List Json) : decode P (.arr js) ≠ .panic := by
  cases js with
  | nil => simp [decode]
  | cons j js =>
    rw [decode, Ne, Outcome.bind_eq_panic]
    rintro (h | ⟨tag, -, h⟩)
    · exact readTag_ne_panic j h
    · cases tag <;> simp [Outcome.bind_eq_panic, visitStringsSeq_ne_panic] at h

end

end Message

end ZWS
