import ZeekWebSocket.Spec.Scalar

/-! Reading a timespan, for every string. The scan always cuts at a character, and the
result is decided by the number and the unit on the two sides of the cut. -/

namespace ZWS.Timespan

open Base

/-- What the scan for the unit passes. -/
def numChar (c : Char) : Bool := c = '-' || c.isDigit

theorem utf8Size_numChar {c : Char} (h : numChar c) : c.utf8Size = 1 := by
  simp only [numChar, Bool.or_eq_true, decide_eq_true_eq] at h
  rcases h with rfl | h
  · rfl
  · have hle : c.toNat ≤ 57 := (Char.isDigit_iff_toNat.mp h).2
    refine Char.utf8Size_eq_one_iff.mpr ?_
    rw [UInt32.le_iff_toNat_le]
    exact le_trans hle (by decide)

theorem unitStart_eq (s : List Char) : unitStart s = (s.findIdx? fun c => !numChar c).getD 0 := by
  have hp : (fun c : Char => decide (c ≠ '-' ∧ (!c.isDigit) = true)) = fun c => !numChar c := by
    funext c
    simp [numChar]
  rw [unitStart, hp]

/-- Text with a unit is cut before the first character of the unit. -/
theorem unitStart_append {num unit : List Char} {c : Char} (hnum : ∀ d ∈ num, numChar d)
    (hc : ¬ numChar c) : unitStart (num ++ c :: unit) = num.length := by
  have hfalse : num.findIdx? (fun c => !numChar c) = none := by
    simpa [List.findIdx?_eq_none_iff] using hnum
  rw [unitStart_eq, List.findIdx?_append, hfalse]
  simp [List.findIdx?_cons, hc]

/-- Text without a unit is cut at its start. -/
theorem unitStart_numeric {s : List Char} (h : ∀ c ∈ s, numChar c) : unitStart s = 0 := by
  have hfalse : s.findIdx? (fun c => !numChar c) = none := by
    simpa [List.findIdx?_eq_none_iff] using h
  rw [unitStart_eq, hfalse]
  rfl

/-- Every string is all number, or number and then a unit. -/
theorem numeric_or_unit (s : List Char) :
    (∀ c ∈ s, numChar c) ∨
      ∃ num c unit, s = num ++ c :: unit ∧ (∀ d ∈ num, numChar d) ∧ ¬ numChar c := by
  cases h : s.find? fun c => !numChar c with
  | none => exact Or.inl (by simpa using List.find?_eq_none.mp h)
  | some c =>
    obtain ⟨hc, num, unit, rfl, hnum⟩ := List.find?_eq_some_iff_append.mp h
    exact Or.inr ⟨num, c, unit, rfl, by simpa using hnum, by simpa using hc⟩

theorem cut_append {num unit : List Char} {c : Char} (hnum : ∀ d ∈ num, numChar d)
    (hc : ¬ numChar c) :
    splitAtByte (unitStart (num ++ c :: unit)) (num ++ c :: unit) = some (num, c :: unit) := by
  rw [unitStart_append hnum hc]
  exact splitAtByte_append fun d hd => utf8Size_numChar (hnum d hd)

/-- The text of a unit on the wire. -/
def Unit.text : Unit → String
  | .ns => "ns"
  | .us => "us"
  | .ms => "ms"
  | .s => "s"
  | .min => "min"
  | .h => "h"
  | .d => "d"

theorem Unit.fromStr_eq_ok {t : String} {u : Unit} : Unit.fromStr t = .ok u ↔ t = u.text := by
  refine ⟨?_, ?_⟩
  · intro h
    unfold Unit.fromStr at h
    split at h <;> cases h <;> rfl
  · rintro rfl
    cases u <;> rfl

theorem Unit.text_cons (u : Unit) : ∃ c cs, u.text.toList = c :: cs ∧ ¬ numChar c := by
  cases u <;> exact ⟨_, _, rfl, by decide⟩

/-- A string of a number that an `i64` holds and a unit. -/
def Written (s : String) (n : Int64) (u : Unit) : Prop :=
  ∃ num, s.toList = num ++ u.text.toList ∧ (∀ c ∈ num, numChar c) ∧ parseI64 num = .ok n

theorem deserialize_of_written {s : String} {n : Int64} {u : Unit} (h : Written s n u) :
    deserialize s = u.duration n := by
  obtain ⟨num, hs, hnum, hn⟩ := h
  obtain ⟨c, cs, hu, hc⟩ := u.text_cons
  have hunit : String.ofList (c :: cs) = u.text := by rw [← hu, String.ofList_toList]
  unfold deserialize
  rw [hs, hu, cut_append hnum hc]
  simp only [Outcome.expect, Outcome.ok_bind, hn, hunit, Unit.fromStr_eq_ok.mpr rfl, Outcome.ofExcept,
    Outcome.mapErr]

/-- Everything else is an error, and none of it panics. -/
theorem written_or_err (s : String) :
    (∃ n u, Written s n u) ∨ ∃ e, deserialize s = .err e := by
  rcases numeric_or_unit s.toList with h | ⟨num, c, unit, hs, hnum, hc⟩
  · refine Or.inr ⟨.parseInt .empty, ?_⟩
    unfold deserialize
    rw [unitStart_numeric h]
    simp [splitAtByte, Outcome.expect, parseI64, parseInt, Except.map, Outcome.ofExcept, Outcome.mapErr]
  · cases hn : parseI64 num with
    | error e =>
      refine Or.inr ⟨.parseInt e, ?_⟩
      unfold deserialize
      rw [hs, cut_append hnum hc]
      simp [Outcome.expect, hn, Outcome.ofExcept, Outcome.mapErr]
    | ok n =>
      cases hu : Unit.fromStr (.ofList (c :: unit)) with
      | error e =>
        refine Or.inr ⟨.parse e, ?_⟩
        unfold deserialize
        rw [hs, cut_append hnum hc]
        simp only [Outcome.expect, Outcome.ok_bind, hn, hu, Outcome.ofExcept, Outcome.mapErr,
          Outcome.err_bind]
      | ok u =>
        refine Or.inl ⟨n, u, num, ?_, hnum, hn⟩
        rw [← Unit.fromStr_eq_ok.mp hu, String.toList_ofList, hs]

theorem deserialize_eq_ok {s : String} {d : Duration} :
    deserialize s = .ok d ↔ ∃ n u, Written s n u ∧ u.duration n = .ok d := by
  refine ⟨?_, ?_⟩
  · intro h
    rcases written_or_err s with ⟨n, u, hw⟩ | ⟨e, he⟩
    · exact ⟨n, u, hw, by rw [← deserialize_of_written hw, h]⟩
    · simp [he] at h
  · intro hsome
    obtain ⟨n, u, hw, hd⟩ := hsome
    rw [deserialize_of_written hw, hd]

theorem deserialize_eq_panic {s : String} :
    deserialize s = .panic ↔ ∃ n u, Written s n u ∧ u.duration n = .panic := by
  refine ⟨?_, ?_⟩
  · intro h
    rcases written_or_err s with ⟨n, u, hw⟩ | ⟨e, he⟩
    · exact ⟨n, u, hw, by rw [← deserialize_of_written hw, h]⟩
    · simp [he] at h
  · intro hsome
    obtain ⟨n, u, hw, hd⟩ := hsome
    rw [deserialize_of_written hw, hd]

/-- Seconds to a unit, for the units that multiply. -/
def Unit.factor : Unit → ℤ
  | .min => 60
  | .h => 3600
  | .d => 86400
  | _ => 1

theorem Unit.duration_eq_panic {u : Unit} {n : Int64} :
    u.duration n = .panic ↔ ¬ FitsI64 (n.toInt * u.factor) := by
  have hfit := fitsI64_toInt n
  cases u <;>
    simp [Unit.duration, Unit.factor, hfit, Duration.ofMinutes, Duration.ofHours, Duration.ofDays,
      Duration.checkedSeconds_eq_none]

/-- A printed number and a unit are read back as that many units. -/
theorem written_repr (n : Int64) (u : Unit) : Written (n.toInt.repr ++ u.text) n u := by
  refine ⟨n.toInt.repr.toList, String.toList_append, fun c hc => ?_, parseI64_repr n⟩
  rcases lt_or_ge n.toInt 0 with h | h
  · rw [toList_repr_neg h] at hc
    rcases List.mem_cons.mp hc with rfl | hc
    · rfl
    · simp [numChar, isDigit_toDigits _ c hc]
  · rw [toList_repr_nonneg h] at hc
    simp [numChar, isDigit_toDigits _ c hc]

theorem deserialize_repr (n : Int64) (u : Unit) :
    deserialize (n.toInt.repr ++ u.text) = u.duration n :=
  deserialize_of_written (written_repr n u)

/-- The durations that have a text of their own. -/
def Representable (d : Duration) : Prop := d.nanoseconds = 0 ∨ FitsI64 d.wholeNanoseconds

instance (d : Duration) : Decidable (Representable d) := inferInstanceAs (Decidable (_ ∨ _))

theorem serialize_eq_error {d : Duration} :
    (∃ e, serialize d = .error e) ↔ ¬ Representable d := by
  unfold serialize Representable Duration.subsecNanoseconds
  by_cases h1 : d.nanoseconds = 0
  · simp [h1]
  · by_cases h2 : FitsI64 d.wholeNanoseconds <;> simp [h1, h2]

/-- What is written reads back as the duration it was written for. -/
theorem deserialize_serialize {d : Duration} (h : Representable d) :
    ∃ s, serialize d = .ok s ∧ deserialize s = .ok d := by
  unfold serialize Duration.subsecNanoseconds
  by_cases hz : d.nanoseconds = 0
  · refine ⟨_, if_pos hz, ?_⟩
    rw [show "s" = Unit.s.text from rfl, deserialize_repr]
    refine congrArg _ (Duration.ext_of_wholeNanoseconds ?_)
    simp [Duration.wholeNanoseconds, Duration.ofSeconds, Duration.wholeSeconds, hz]
  · have hfit : FitsI64 d.wholeNanoseconds := h.resolve_left hz
    refine ⟨_, by rw [if_neg hz, if_pos hfit], ?_⟩
    rw [show "ns" = Unit.ns.text from rfl, ← hfit.toInt_ofInt, deserialize_repr]
    refine congrArg _ (Duration.ext_of_wholeNanoseconds ?_)
    rw [Duration.ofNanoseconds, Duration.wholeNanoseconds_ofFraction, hfit.toInt_ofInt, mul_one]

end ZWS.Timespan
