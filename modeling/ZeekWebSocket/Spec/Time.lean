import ZeekWebSocket.Library.Outcome
import ZeekWebSocket.Library.Text

/-! The types of the `time` crate that the wire format uses: signed durations,
local date-times, UTC offsets and instants with an offset of their own. -/

namespace ZWS

open Base

/-- Quotient and remainder of a truncating division, by the sign of the dividend. -/
theorem trunc_parts (n : ℤ) {p : ℤ} (hp : 0 < p) :
    p * n.tdiv p + n.tmod p = n ∧
      ((0 ≤ n ∧ 0 ≤ n.tdiv p ∧ n.tdiv p ≤ n ∧ 0 ≤ n.tmod p ∧ n.tmod p < p) ∨
        (n ≤ 0 ∧ n.tdiv p ≤ 0 ∧ n ≤ n.tdiv p ∧ n.tmod p ≤ 0 ∧ -p < n.tmod p)) := by
  refine ⟨Int.mul_tdiv_add_tmod n p, ?_⟩
  rcases le_total 0 n with hn | hn
  · exact Or.inl ⟨hn, Int.tdiv_nonneg hn hp.le, Int.tdiv_le_self p hn,
      Int.tmod_nonneg p hn, Int.tmod_lt_of_pos n hp⟩
  · have hneg : 0 ≤ -n := by omega
    have h1 := Int.tdiv_nonneg hneg hp.le
    have h2 := Int.tdiv_le_self p hneg
    have h3 := Int.tmod_nonneg p hneg
    have h4 := Int.tmod_lt_of_pos (-n) hp
    rw [Int.neg_tdiv] at h1 h2
    rw [Int.neg_tmod] at h3 h4
    exact Or.inr ⟨hn, by omega, by omega, by omega, by omega⟩

/-- `time::Duration`: whole seconds and a sub-second part of the same sign. -/
@[ext]
structure Duration where
  seconds : Int64
  nanoseconds : ℤ
  nanos_range : -10 ^ 9 < nanoseconds ∧ nanoseconds < 10 ^ 9
  same_sign : (0 < seconds.toInt → 0 ≤ nanoseconds) ∧ (seconds.toInt < 0 → nanoseconds ≤ 0)
  deriving DecidableEq

namespace Duration

def wholeSeconds (d : Duration) : Int64 := d.seconds

def subsecNanoseconds (d : Duration) : ℤ := d.nanoseconds

def wholeNanoseconds (d : Duration) : ℤ := d.seconds.toInt * 10 ^ 9 + d.nanoseconds

theorem toInt_ofInt_tdiv (n : Int64) {p : ℤ} (hp : 0 < p) :
    (Int64.ofInt (n.toInt.tdiv p)).toInt = n.toInt.tdiv p := by
  obtain ⟨h1, h2⟩ := fitsI64_toInt n
  refine FitsI64.toInt_ofInt ?_
  obtain ⟨-, h | h⟩ := trunc_parts n.toInt hp <;> constructor <;> omega

/-- `n` units of `scale` nanoseconds, `per` of which make a second. -/
def ofFraction (n : Int64) (per scale : ℤ) (hp : 0 < per) (hs : 0 < scale)
    (h : per * scale = 10 ^ 9) : Duration where
  seconds := Int64.ofInt (n.toInt.tdiv per)
  nanoseconds := n.toInt.tmod per * scale
  nanos_range := by
    rw [← h]
    obtain ⟨-, h | h⟩ := trunc_parts n.toInt hp <;> constructor <;> nlinarith
  same_sign := by
    rw [toInt_ofInt_tdiv n hp]
    obtain ⟨-, h | h⟩ := trunc_parts n.toInt hp
    · exact ⟨fun _ => Int.mul_nonneg h.2.2.2.1 hs.le, fun hlt => absurd h.2.1 (by omega)⟩
    · exact ⟨fun hlt => absurd h.2.1 (by omega),
        fun _ => Int.mul_nonpos_of_nonpos_of_nonneg h.2.2.2.1 hs.le⟩

def ofNanoseconds (n : Int64) : Duration :=
  ofFraction n (10 ^ 9) 1 (by norm_num) (by norm_num) (by norm_num)

def ofMicroseconds (n : Int64) : Duration :=
  ofFraction n (10 ^ 6) (10 ^ 3) (by norm_num) (by norm_num) (by norm_num)

def ofMilliseconds (n : Int64) : Duration :=
  ofFraction n (10 ^ 3) (10 ^ 6) (by norm_num) (by norm_num) (by norm_num)

def ofSeconds (n : Int64) : Duration := ⟨n, 0, by norm_num, by simp⟩

/-- `n` units of `secs` seconds. The multiplication is checked, and a count of seconds that
leaves `i64` is a panic in the callers. -/
def checkedSeconds (n : Int64) (secs : ℤ) : Option Duration :=
  if FitsI64 (n.toInt * secs) then some (ofSeconds (Int64.ofInt (n.toInt * secs))) else none

def ofMinutes {ε : Type} (n : Int64) : Outcome ε Duration := .expect (checkedSeconds n 60)

def ofHours {ε : Type} (n : Int64) : Outcome ε Duration := .expect (checkedSeconds n 3600)

def ofDays {ε : Type} (n : Int64) : Outcome ε Duration := .expect (checkedSeconds n 86400)

/-- `Duration::new`: whole seconds are carried over, and the rest is given their sign. The seconds
may overflow, which is a panic. -/
def new {ε : Type} (seconds : Int64) (nanoseconds : ℤ) : Outcome ε Duration :=
  let s := seconds.toInt + nanoseconds.tdiv (10 ^ 9)
  let n := nanoseconds.tmod (10 ^ 9)
  have hn : -10 ^ 9 < n ∧ n < 10 ^ 9 := by
    obtain ⟨-, h | h⟩ := trunc_parts nanoseconds (p := 10 ^ 9) (by norm_num) <;> omega
  if h : FitsI64 s then
    have hs : (Int64.ofInt s).toInt = s := h.toInt_ofInt
    if hpos : 0 < s ∧ n < 0 then
      have hs : (Int64.ofInt (s - 1)).toInt = s - 1 :=
        FitsI64.toInt_ofInt ⟨by omega, by have := h.2; omega⟩
      .ok ⟨Int64.ofInt (s - 1), n + 10 ^ 9, by omega, by rw [hs]; omega⟩
    else if hneg : s < 0 ∧ 0 < n then
      have hs : (Int64.ofInt (s + 1)).toInt = s + 1 :=
        FitsI64.toInt_ofInt ⟨by have := h.1; omega, by omega⟩
      .ok ⟨Int64.ofInt (s + 1), n - 10 ^ 9, by omega, by rw [hs]; omega⟩
    else .ok ⟨Int64.ofInt s, n, hn, by rw [hs]; omega⟩
  else .panic

theorem wholeNanoseconds_ofFraction (n : Int64) {per scale : ℤ} (hp : 0 < per) (hs : 0 < scale)
    (h : per * scale = 10 ^ 9) :
    (ofFraction n per scale hp hs h).wholeNanoseconds = n.toInt * scale := by
  have e := (trunc_parts n.toInt hp).1
  simp only [wholeNanoseconds, ofFraction, toInt_ofInt_tdiv n hp]
  calc n.toInt.tdiv per * 10 ^ 9 + n.toInt.tmod per * scale
      = (per * n.toInt.tdiv per + n.toInt.tmod per) * scale := by rw [← h]; ring
    _ = n.toInt * scale := by rw [e]

theorem checkedSeconds_eq_some {n : Int64} {secs : ℤ} {d : Duration} :
    checkedSeconds n secs = some d ↔
      FitsI64 (n.toInt * secs) ∧ ofSeconds (Int64.ofInt (n.toInt * secs)) = d := by
  simp only [checkedSeconds, Option.ite_none_right_eq_some, Option.some.injEq]

theorem checkedSeconds_eq_none {n : Int64} {secs : ℤ} :
    checkedSeconds n secs = none ↔ ¬ FitsI64 (n.toInt * secs) := by
  simp only [checkedSeconds, ite_eq_right_iff, reduceCtorEq, imp_false]

/-- A duration is determined by its total, since both parts carry its sign. -/
theorem ext_of_wholeNanoseconds {d d' : Duration}
    (h : d.wholeNanoseconds = d'.wholeNanoseconds) : d = d' := by
  obtain ⟨s, n, hn, hs⟩ := d
  obtain ⟨s', n', hn', hs'⟩ := d'
  simp only [wholeNanoseconds] at h
  have hsec : s.toInt = s'.toInt := by omega
  exact Duration.ext (Int64.toInt_inj.mp hsec) (by simp only; omega)

end Duration

/-- `time::UtcOffset`, at most 25:59:59 in either direction. -/
@[ext]
structure UtcOffset where
  seconds : ℤ
  range : -93599 ≤ seconds ∧ seconds ≤ 93599
  deriving DecidableEq

/-- The nanoseconds from 1970-01-01T00:00:00 to -9999-01-01T00:00:00 on the same clock. -/
def minDateTime : ℤ := -377705116800 * 10 ^ 9

/-- The last nanosecond of the year 9999. -/
def maxDateTime : ℤ := 253402300800 * 10 ^ 9 - 1

/-- `time::PrimitiveDateTime`, a date and a time of day, as nanoseconds from 1970-01-01T00:00:00
on the same clock. -/
@[ext]
structure PrimitiveDateTime where
  nanos : ℤ
  range : minDateTime ≤ nanos ∧ nanos ≤ maxDateTime
  deriving DecidableEq

/-- `time::OffsetDateTime`: a local date-time and the offset it is read at. -/
@[ext]
structure OffsetDateTime where
  localTime : PrimitiveDateTime
  offset : UtcOffset
  deriving DecidableEq

def PrimitiveDateTime.assumeOffset (d : PrimitiveDateTime) (o : UtcOffset) : OffsetDateTime := ⟨d, o⟩

namespace OffsetDateTime

/-- `unix_timestamp_nanos`, the instant. Comparison looks at nothing else. -/
def unixNanos (t : OffsetDateTime) : ℤ := t.localTime.nanos - t.offset.seconds * 10 ^ 9

/-- The same instant on another clock, if its date exists there. -/
def checkedToOffset (t : OffsetDateTime) (o : UtcOffset) : Option OffsetDateTime :=
  if h : minDateTime ≤ t.unixNanos + o.seconds * 10 ^ 9 ∧
      t.unixNanos + o.seconds * 10 ^ 9 ≤ maxDateTime then
    some ⟨⟨t.unixNanos + o.seconds * 10 ^ 9, h⟩, o⟩
  else none

/-- `to_offset` panics where the local date leaves the supported years. -/
def toOffset {ε : Type} (t : OffsetDateTime) (o : UtcOffset) : Outcome ε OffsetDateTime :=
  .expect (t.checkedToOffset o)

/-- `from_unix_timestamp_nanos`, in UTC. -/
def ofUnixNanos (n : ℤ) : Option OffsetDateTime :=
  if h : minDateTime ≤ n ∧ n ≤ maxDateTime then some ⟨⟨n, h⟩, ⟨0, by norm_num⟩⟩ else none

/-- `new_in_offset`: the date and time of day at another offset, which is another instant unless it
is the same offset. -/
def newInOffset (d : PrimitiveDateTime) (o : UtcOffset) : OffsetDateTime := ⟨d, o⟩

theorem unixNanos_of_checkedToOffset {t t' : OffsetDateTime} {o : UtcOffset}
    (h : t.checkedToOffset o = some t') : t'.unixNanos = t.unixNanos ∧ t'.offset = o := by
  unfold checkedToOffset at h
  split at h
  · obtain rfl := Option.some.inj h
    simp [unixNanos]
  · simp at h

/-- An instant already at an offset stays as it is. -/
theorem checkedToOffset_self (t : OffsetDateTime) : t.checkedToOffset t.offset = some t := by
  have hn : t.unixNanos + t.offset.seconds * 10 ^ 9 = t.localTime.nanos := by
    simp [unixNanos]
  unfold checkedToOffset
  rw [dif_pos (by rw [hn]; exact t.localTime.range)]
  simp only [hn]

end OffsetDateTime

end ZWS
