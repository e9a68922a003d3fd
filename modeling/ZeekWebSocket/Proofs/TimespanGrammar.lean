import ZeekWebSocket.Sanity.Timespan

/-! The grammar of timespans. The scan for the unit and the integer reader accept more than
they should one by one; together they accept a count and a unit, and nothing else. -/

namespace ZWS.Timespan

open Base

/-- A unit in nanoseconds. -/
def Unit.nanos : Unit → ℤ
  | .ns => 1
  | .us => 10 ^ 3
  | .ms => 10 ^ 6
  | .s => 10 ^ 9
  | .min => 60 * 10 ^ 9
  | .h => 3600 * 10 ^ 9
  | .d => 86400 * 10 ^ 9

/-- A decimal count in the range of `i64`, and then the text of a unit. -/
def Spells (s : String) (n : ℤ) (u : Unit) : Prop :=
  ∃ num, s.toList = num ++ u.text.toList ∧ Decimal num n ∧ FitsI64 n

/-- The whole seconds of `n` units. -/
def seconds (n : ℤ) (u : Unit) : ℤ := (n * u.nanos).tdiv (10 ^ 9)

theorem decimal_numChar {num : List Char} {n : ℤ} (h : Decimal num n) : ∀ c ∈ num, numChar c := by
  cases h with
  | plain _ hds =>
    intro c hc
    simp [numChar, hds c hc]
  | minus _ hds =>
    refine List.forall_mem_cons.mpr ⟨rfl, fun c hc => ?_⟩
    simp [numChar, hds c hc]

theorem plus_not_mem {num : List Char} (h : ∀ c ∈ num, numChar c) : '+' ∉ num := fun hmem =>
  absurd (h '+' hmem) (by decide)

/-- What the scan and the integer reader take together is what the grammar says. -/
theorem written_iff {s : String} {n : Int64} {u : Unit} : Written s n u ↔ Spells s n.toInt u := by
  refine ⟨?_, ?_⟩
  · intro h
    obtain ⟨num, hs, hnum, hn⟩ := h
    have hint := parseI64_eq_ok.mp hn
    obtain ⟨hd, -⟩ := (parseInt_eq_ok_iff (by norm_num) (by norm_num) (plus_not_mem hnum)).mp hint
    exact ⟨num, hs, hd, fitsI64_toInt n⟩
  · intro h
    obtain ⟨num, hs, hd, hlo, hhi⟩ := h
    have hnum := decimal_numChar hd
    have hint : parseInt (-2 ^ 63) (2 ^ 63 - 1) num = .ok n.toInt :=
      (parseInt_eq_ok_iff (by norm_num) (by norm_num) (plus_not_mem hnum)).mpr ⟨hd, hlo, by omega⟩
    exact ⟨num, hs, hnum, parseI64_eq_ok.mpr hint⟩

theorem exists_int64 {s : String} {n : ℤ} {u : Unit} (h : Spells s n u) : ∃ m : Int64, m.toInt = n := by
  obtain ⟨num, -, -, hfit⟩ := h
  exact ⟨.ofInt n, hfit.toInt_ofInt⟩

theorem seconds_mul (n k : ℤ) : (n * (k * 10 ^ 9)).tdiv (10 ^ 9) = n * k := by
  rw [← mul_assoc]
  exact Int.mul_tdiv_cancel _ (by norm_num)

/-- The units of a second and below never leave the seconds of an `i64`. -/
theorem fitsI64_fraction {n k : ℤ} (hn : FitsI64 n) (h0 : 0 < k) (hk : k ≤ 10 ^ 9) :
    FitsI64 ((n * k).tdiv (10 ^ 9)) := by
  obtain ⟨hlo, hhi⟩ := hn
  have hp : (0 : ℤ) < 10 ^ 9 := by norm_num
  obtain ⟨hsplit, h | h⟩ := trunc_parts (n * k) hp
  · have : (n * k).tdiv (10 ^ 9) ≤ n := by
      by_contra hlt
      nlinarith
    exact ⟨by omega, by omega⟩
  · have : n ≤ (n * k).tdiv (10 ^ 9) := by
      by_contra hlt
      nlinarith
    exact ⟨by omega, by omega⟩

theorem eq_iff_wholeNanoseconds {d e : Duration} : d = e ↔ e.wholeNanoseconds = d.wholeNanoseconds :=
  ⟨fun h => h ▸ rfl, fun h => Duration.ext_of_wholeNanoseconds h.symm⟩

theorem wholeNanoseconds_ofSeconds (n : Int64) :
    (Duration.ofSeconds n).wholeNanoseconds = n.toInt * 10 ^ 9 := by
  simp [Duration.wholeNanoseconds, Duration.ofSeconds]

theorem checkedSeconds_eq_some_iff {n : Int64} {k : ℤ} {d : Duration} :
    Duration.checkedSeconds n k = some d ↔
      FitsI64 ((n.toInt * (k * 10 ^ 9)).tdiv (10 ^ 9)) ∧
        d.wholeNanoseconds = n.toInt * (k * 10 ^ 9) := by
  rw [Duration.checkedSeconds_eq_some, seconds_mul]
  refine and_congr_right fun hfit => ?_
  rw [eq_iff_wholeNanoseconds, wholeNanoseconds_ofSeconds, hfit.toInt_ofInt, mul_assoc]

/-- A count of units is the duration of that many nanoseconds, if its seconds fit. -/
theorem duration_eq_ok {n : Int64} {u : Unit} {d : Duration} : u.duration n = .ok d ↔
    FitsI64 (seconds n.toInt u) ∧ d.wholeNanoseconds = n.toInt * u.nanos := by
  have hn := fitsI64_toInt n
  have short : ∀ e : Duration, e.wholeNanoseconds = n.toInt * u.nanos → 0 < u.nanos →
      u.nanos ≤ 10 ^ 9 →
      (Outcome.ok e = (Outcome.ok d : Outcome DecodeError Duration) ↔
        FitsI64 (seconds n.toInt u) ∧ d.wholeNanoseconds = n.toInt * u.nanos) := by
    intro e he h0 hle
    rw [Outcome.ok.injEq, eq_iff_wholeNanoseconds, he, seconds]
    exact (and_iff_right (fitsI64_fraction hn h0 hle)).symm
  cases u with
  | ns => exact short _ (Duration.wholeNanoseconds_ofFraction _ _ _ _) (by decide) (by decide)
  | us => exact short _ (Duration.wholeNanoseconds_ofFraction _ _ _ _) (by decide) (by decide)
  | ms => exact short _ (Duration.wholeNanoseconds_ofFraction _ _ _ _) (by decide) (by decide)
  | s => exact short _ (wholeNanoseconds_ofSeconds n) (by decide) (by decide)
  | min => exact Outcome.expect_eq_ok.trans checkedSeconds_eq_some_iff
  | h => exact Outcome.expect_eq_ok.trans checkedSeconds_eq_some_iff
  | d => exact Outcome.expect_eq_ok.trans checkedSeconds_eq_some_iff

/-- Reading a timespan succeeds exactly for a count and a unit whose seconds fit `i64`, with the
exact duration, and fails exactly for what is no count and unit. -/
theorem deserialize_iff_grammar (s : String) :
    (∀ d, deserialize s = .ok d ↔ ∃ n u, Spells s n u ∧ FitsI64 (seconds n u) ∧
      d.wholeNanoseconds = n * u.nanos) ∧
    ((∃ e, deserialize s = .err e) ↔ ¬ ∃ n u, Spells s n u) := by
  refine ⟨fun d => ?_, ?_⟩
  · simp only [deserialize_eq_ok, duration_eq_ok]
    refine ⟨?_, ?_⟩
    · intro h
      obtain ⟨n, u, hw, hd⟩ := h
      exact ⟨n.toInt, u, written_iff.mp hw, hd⟩
    · intro h
      obtain ⟨n, u, hsp, hd⟩ := h
      obtain ⟨n, rfl⟩ := exists_int64 hsp
      exact ⟨n, u, written_iff.mpr hsp, hd⟩
  · refine ⟨?_, ?_⟩
    · intro h hsp
      obtain ⟨e, he⟩ := h
      obtain ⟨n, u, hsp⟩ := hsp
      obtain ⟨n, rfl⟩ := exists_int64 hsp
      rw [deserialize_of_written (written_iff.mpr hsp)] at he
      cases u <;> simp [Unit.duration, Duration.ofMinutes, Duration.ofHours, Duration.ofDays] at he
    · intro hno
      rcases written_or_err s with ⟨n, u, hw⟩ | herr
      · exact absurd ⟨n.toInt, u, written_iff.mp hw⟩ hno
      · exact herr

example : deserialize "+5s" = .err (.parseInt .empty) := by decide

end ZWS.Timespan
