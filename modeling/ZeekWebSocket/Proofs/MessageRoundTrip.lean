import ZeekWebSocket.Proofs.ValueRoundTrip
import ZeekWebSocket.Sanity.Message

/-! Messages survive the wire. The three layers of one object, the tag of the message, the
topic and the flattened payload, are told apart whatever they hold. -/

namespace ZWS

open Base

namespace Message

/-- The payload of a message is what the types of the program and the local offset allow. -/
def Sound (o : UtcOffset) : Message → Prop
  | .dataMessage _ data =>
    data.toValue.Canonical ∧ data.toValue.RealsFinite ∧ data.toValue.TimesFit o
  | _ => True

/-- What comes back for a message. Only other payloads may turn into something else, and only
into the event that their shape spells. -/
def ComesBack : Message → Message → Prop
  | .dataMessage topic (.event e), m' => ∃ e', m' = .dataMessage topic (.event e') ∧ e'.Equal e
  | .dataMessage topic (.other v), m' =>
    (¬ Data.EventShaped v → ∃ v', m' = .dataMessage topic (.other v') ∧ v'.Equal v) ∧
      ∀ e, Data.ofValue v = .event e → ∃ e', m' = .dataMessage topic (.event e') ∧ e'.Equal e
  | m, m' => m' = m

theorem decode_ack (P : Platform) (endpoint version : String) :
    decode P (.obj [(typeKey, .str Tag.ack.name), ("endpoint", .str endpoint),
      ("version", .str version)]) = .ok (.ack endpoint version) := by
  simp [decode, takeTag, typeKey, readTag, Tag.fromStr, Tag.name, visitAck, visitStrings, readString]

theorem decode_error (P : Platform) (code context : String) :
    decode P (.obj [(typeKey, .str Tag.error.name), ("code", .str code),
      ("context", .str context)]) = .ok (.error code context) := by
  simp [decode, takeTag, typeKey, readTag, Tag.fromStr, Tag.name, visitError, visitStrings, readString]

/-- A data message is read back through the reader of its payload. -/
theorem decode_dataMessage (P : Platform) (topic : String) (t : ZWS.Tag) (c : Json) :
    decode P (.obj [(typeKey, .str Tag.dataMessage.name), ("topic", .str topic),
      (tagKey, .str t.name), (contentKey, c)]) =
    Value.decodeContent P true t c >>= fun v => .ok (.dataMessage topic (.ofValue v)) := by
  rw [← Value.decode_tagged]
  simp [decode, takeTag, typeKey, readTag, Tag.fromStr, Tag.name, visitDataMessage, readString, tagKey,
    contentKey, tagged, Value.decode]

theorem comesBack_ofValue {topic : String} {data : Data} {v : Value} (h : v.Equal data.toValue) :
    ComesBack (.dataMessage topic data) (.dataMessage topic (.ofValue v)) := by
  have heq := Data.ofValue_equal h
  cases data with
  | event e =>
    rw [Data.ofValue_toValue] at heq
    cases hv : Data.ofValue v with
    | event e' => exact ⟨e', rfl, by rwa [hv] at heq⟩
    | other w => rw [hv] at heq; exact heq.elim
  | other w =>
    refine ⟨fun hns => ?_, fun e he => ?_⟩
    · rw [Data.toValue, Data.ofValue_of_not_eventShaped hns] at heq
      cases hv : Data.ofValue v with
      | event e' => rw [hv] at heq; exact heq.elim
      | other v' => exact ⟨v', rfl, by rwa [hv] at heq⟩
    · rw [Data.toValue, he] at heq
      cases hv : Data.ofValue v with
      | event e' => exact ⟨e', rfl, by rwa [hv] at heq⟩
      | other v' => rw [hv] at heq; exact heq.elim

/-- A payload that is no event but looks like one. -/
def lookalike : Message :=
  .dataMessage "data" (.other (.vector [.none, .count 1,
    .vector [.string "type", .vector [Value.nestedTable], .set []], .boolean true]))

theorem lookalike_sound : lookalike.Sound Sample.utc := by
  refine ⟨by decide, fun x hx => ?_, fun t ht => ?_⟩
  · simp [Data.toValue, Value.nestedTable, Value.parts, Value.partsEntries, Value.partsSeq] at hx
  · obtain rfl : t = ⟨Sample.epoch, Sample.utc⟩ := by
      simpa [Data.toValue, Value.nestedTable, Value.parts, Value.partsEntries, Value.partsSeq] using ht
    decide

end Message

end ZWS
