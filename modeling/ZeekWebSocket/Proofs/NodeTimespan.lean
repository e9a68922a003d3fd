import ZeekWebSocket.Sanity.Node
import ZeekWebSocket.Sanity.Sample

/-! Timespans on the way from Node. Their nanoseconds are split into seconds and the rest of a
second in `f64`, where an `i64` has no more than 53 bits, and neither has the number of
nanoseconds in a number of seconds. -/

namespace ZWS

open Base

namespace Duration

/-- The parts of `Duration::new` add up. -/
theorem new_spec {ε : Type} {seconds : Int64} {nanoseconds : ℤ}
    (h : FitsI64 (seconds.toInt + nanoseconds.tdiv (10 ^ 9))) :
    ∃ d, (new seconds nanoseconds : Outcome ε Duration) = .ok d ∧
      d.wholeNanoseconds = seconds.toInt * 10 ^ 9 + nanoseconds := by
  have hparts := (trunc_parts nanoseconds (p := 10 ^ 9) (by norm_num)).1
  have hs := h.toInt_ofInt
  unfold new
  rw [dif_pos h]
  split_ifs with hpos hneg
  · have hs' := FitsI64.toInt_ofInt (n := seconds.toInt + nanoseconds.tdiv (10 ^ 9) - 1)
      ⟨by omega, by have := h.2; omega⟩
    refine ⟨_, rfl, ?_⟩
    simp only [wholeNanoseconds, hs']
    linarith
  · have hs' := FitsI64.toInt_ofInt (n := seconds.toInt + nanoseconds.tdiv (10 ^ 9) + 1)
      ⟨by have := h.1; omega, by omega⟩
    refine ⟨_, rfl, ?_⟩
    simp only [wholeNanoseconds, hs']
    linarith
  · refine ⟨_, rfl, ?_⟩
    simp only [wholeNanoseconds, hs]
    linarith

end Duration

namespace Node

/-- The seconds that nanoseconds are taken for. -/
def secondsOf (n : ℤ) : ℤ := truncate (round53 (round53 n / 10 ^ 9))

/-- The nanoseconds that are left. -/
def restOf (n : ℤ) : ℤ := truncate (round53 (round53 n - round53 (secondsOf n * 10 ^ 9)))

theorem secondsOf_neg (n : ℤ) : secondsOf (-n) = -secondsOf n := by
  rw [secondsOf, Int.cast_neg, round53_neg, neg_div, round53_neg, truncate_neg, secondsOf]

theorem restOf_neg (n : ℤ) : restOf (-n) = -restOf n := by
  have hsub : -round53 n - -round53 (secondsOf n * 10 ^ 9) =
      -(round53 n - round53 (secondsOf n * 10 ^ 9)) := by ring
  rw [restOf, secondsOf_neg, Int.cast_neg, Int.cast_neg, round53_neg, neg_mul, round53_neg, hsub,
    round53_neg, truncate_neg, restOf]

/-- Below `2 ^ 64` the numbers of 53 bits are at most 2048 apart. -/
theorem round53_near {n : ℕ} {x : ℤ} (h : n < 2 ^ 64) (hx : round53 n = x) :
    |x - n| ≤ 1024 ∧ 0 ≤ x := by
  refine ⟨?_, ?_⟩
  · by_cases h0 : n = 0
    · subst h0
      have : x = 0 := by simpa using hx.symm
      simp [this]
    have hlt : |(n : ℚ)| < 2 ^ (53 + 11 : ℤ) := by
      rw [abs_of_nonneg (Nat.cast_nonneg n)]
      exact_mod_cast h
    have hulp : ulp n ≤ 2 ^ (11 : ℤ) := ulp_le (by exact_mod_cast h0) hlt
    have herr := abs_round53_sub_le (n : ℚ)
    rw [hx] at herr
    have : |(x : ℚ) - n| ≤ 1024 := by
      norm_num at hulp
      linarith
    exact_mod_cast this
  · have := round53_nonneg (q := n) (Nat.cast_nonneg n)
    rw [hx] at this
    exact_mod_cast this

/-- A second more or less, and the rounding of the quotient. -/
theorem secondsOf_near {n : ℕ} {x : ℤ} (h : n ≤ 2 ^ 63) (hx : round53 n = x) :
    0 ≤ secondsOf n ∧ secondsOf n * 10 ^ 9 ≤ x + 954 ∧ x < (secondsOf n + 1) * 10 ^ 9 + 954 := by
  obtain ⟨hnear, h0⟩ := round53_near (n := n) (by omega) hx
  have hx0 : (0 : ℚ) ≤ x := by exact_mod_cast h0
  have hy0 : 0 ≤ round53 ((x : ℚ) / 10 ^ 9) := round53_nonneg (by positivity)
  have hs : secondsOf n = ⌊round53 ((x : ℚ) / 10 ^ 9)⌋ := by
    rw [secondsOf, Int.cast_natCast, hx, truncate_of_nonneg hy0]
  have herr : |round53 ((x : ℚ) / 10 ^ 9) - x / 10 ^ 9| ≤ 1 / 2 ^ 20 := by
    by_cases hz : (x : ℚ) / 10 ^ 9 = 0
    · rw [hz, round53_zero]
      norm_num
    have hxle : (x : ℚ) ≤ 2 ^ 63 + 1024 := by
      have := (abs_le.mp hnear).2
      have : x ≤ 2 ^ 63 + 1024 := by omega
      exact_mod_cast this
    have hlt : |(x : ℚ) / 10 ^ 9| < 2 ^ (53 + -19 : ℤ) := by
      rw [abs_of_nonneg (by positivity)]
      norm_num at hxle ⊢
      linarith
    have hulp := ulp_le hz hlt
    have hhalf := abs_round53_sub_le ((x : ℚ) / 10 ^ 9)
    norm_num at hulp hhalf ⊢
    linarith
  obtain ⟨hlo, hhi⟩ := abs_le.mp herr
  have hfloor := Int.floor_le (round53 ((x : ℚ) / 10 ^ 9))
  have hfloor' := Int.lt_floor_add_one (round53 ((x : ℚ) / 10 ^ 9))
  rw [← hs] at hfloor hfloor'
  refine ⟨hs ▸ Int.floor_nonneg.mpr hy0, ?_, ?_⟩
  · have : (secondsOf n : ℚ) * 10 ^ 9 ≤ x + 954 := by
      norm_num at hlo hhi ⊢
      linarith
    exact_mod_cast this
  · have : (x : ℚ) < (secondsOf n + 1) * 10 ^ 9 + 954 := by
      norm_num at hlo hhi ⊢
      linarith
    exact_mod_cast this

/-- The difference is a small integer, and is not rounded. -/
theorem split_spec {n : ℕ} (h : n ≤ 2 ^ 63) :
    ∃ x z : ℤ, round53 n = x ∧ round53 (secondsOf n * 10 ^ 9) = z ∧ restOf n = x - z ∧
      |restOf n| < 2 ^ 31 ∧ 0 ≤ secondsOf n ∧ secondsOf n ≤ 9223372036 := by
  obtain ⟨x, hx⟩ := exists_round53_natCast n
  obtain ⟨h0, hlo, hhi⟩ := secondsOf_near h hx
  obtain ⟨hnear, -⟩ := round53_near (by omega) hx
  have hnear' := abs_le.mp hnear
  obtain ⟨s, hs⟩ := Int.eq_ofNat_of_zero_le h0
  have hsle : s ≤ 9223372036 := by omega
  obtain ⟨z, hz⟩ := exists_round53_natCast (s * 10 ^ 9)
  obtain ⟨hznear, -⟩ := round53_near (n := s * 10 ^ 9) (by omega) hz
  have hznear' := abs_le.mp hznear
  have hcast : (secondsOf n * 10 ^ 9 : ℚ) = ((s * 10 ^ 9 : ℕ) : ℚ) := by
    rw [hs]
    push_cast
    rfl
  have hdiff : |x - z| < 2 ^ 31 := by
    rw [abs_lt]
    push_cast at hznear'
    omega
  have hrest : restOf n = x - z := by
    rw [restOf, hcast, hz, Int.cast_natCast, hx, ← Int.cast_sub,
      round53_intCast (hdiff.le.trans (by norm_num)), truncate_intCast]
  exact ⟨x, z, hx, by rw [hcast, hz], hrest, hrest ▸ hdiff, h0, by omega⟩

theorem split_bounds (nanos : Int64) :
    |secondsOf nanos.toInt| ≤ 9223372036 ∧ |restOf nanos.toInt| < 2 ^ 31 := by
  obtain ⟨h1, h2⟩ := fitsI64_toInt nanos
  obtain ⟨n, hn | hn⟩ := Int.eq_nat_or_neg nanos.toInt
  · obtain ⟨-, -, -, -, -, hrest, h0, hle⟩ := split_spec (n := n) (by omega)
    rw [hn]
    exact ⟨abs_le.mpr ⟨by omega, hle⟩, hrest⟩
  · obtain ⟨-, -, -, -, -, hrest, h0, hle⟩ := split_spec (n := n) (by omega)
    rw [hn, secondsOf_neg, restOf_neg, abs_neg, abs_neg]
    exact ⟨abs_le.mpr ⟨by omega, hle⟩, hrest⟩

/-- Nanoseconds always become a duration, and the casts to `i64` and `i32` saturate at nothing. -/
theorem durationOf_spec (nanos : Int64) :
    ∃ d, durationOf nanos = .ok d ∧
      d.wholeNanoseconds = secondsOf nanos.toInt * 10 ^ 9 + restOf nanos.toInt := by
  obtain ⟨hs, hr⟩ := split_bounds nanos
  obtain ⟨hs1, hs2⟩ := abs_le.mp hs
  obtain ⟨hr1, hr2⟩ := abs_lt.mp hr
  have hsecs : castInt (-2 ^ 63) (2 ^ 63 - 1) (secondsOf nanos.toInt) = secondsOf nanos.toInt := by
    rw [castInt_of_mem, truncate_intCast] <;> rw [truncate_intCast] <;> omega
  have hrest : castInt (-2 ^ 31) (2 ^ 31 - 1)
      (round53 (round53 nanos.toInt - round53 (secondsOf nanos.toInt * 10 ^ 9))) =
        restOf nanos.toInt :=
    castInt_of_mem hr1.le (Int.le_sub_one_of_lt hr2)
  have hto : (Int64.ofInt (secondsOf nanos.toInt)).toInt = secondsOf nanos.toInt :=
    FitsI64.toInt_ofInt ⟨by omega, by omega⟩
  have hnew : durationOf nanos = Duration.new
      (.ofInt (castInt (-2 ^ 63) (2 ^ 63 - 1) (secondsOf nanos.toInt)))
      (castInt (-2 ^ 31) (2 ^ 31 - 1)
        (round53 (round53 nanos.toInt - round53 (secondsOf nanos.toInt * 10 ^ 9)))) := rfl
  rw [hnew, hsecs, hrest]
  have hfits : FitsI64 ((Int64.ofInt (secondsOf nanos.toInt)).toInt +
      (restOf nanos.toInt).tdiv (10 ^ 9)) := by
    rw [hto]
    obtain ⟨-, h | h⟩ := trunc_parts (restOf nanos.toInt) (p := 10 ^ 9) (by norm_num) <;>
      exact ⟨by omega, by omega⟩
  obtain ⟨d, hd, hwhole⟩ := Duration.new_spec (ε := Error) hfits
  exact ⟨d, hd, by rw [hwhole, hto]⟩

/-! Which durations have the right number of nanoseconds. -/

theorem round53_seconds {s : ℤ} (h : |s * 5 ^ 9| ≤ 2 ^ 53) : round53 (s * 10 ^ 9) = s * 10 ^ 9 := by
  have hexact := round53_mul_zpow h 9
  have hsplit : ((s * 5 ^ 9 : ℤ) : ℚ) * 2 ^ (9 : ℤ) = s * 10 ^ 9 := by
    push_cast
    norm_num
    ring
  rwa [hsplit] at hexact

/-- Below `2 ^ 62` the seconds are not rounded, only the nanoseconds are. -/
theorem whole_of_lt {n : ℕ} (h : n < 2 ^ 62) :
    secondsOf n * 10 ^ 9 + restOf n = n ↔ 2 ^ (Nat.log 2 n - 52) ∣ n := by
  obtain ⟨x, z, hx, hz, hrest, -, h0, -⟩ := split_spec (n := n) (by omega)
  obtain ⟨-, hlo, -⟩ := secondsOf_near (by omega) hx
  obtain ⟨hnear, -⟩ := round53_near (by omega) hx
  have hnear' := abs_le.mp hnear
  have habs : |secondsOf n * 5 ^ 9| ≤ 2 ^ 53 := abs_le.mpr ⟨by omega, by omega⟩
  have hz' : z = secondsOf n * 10 ^ 9 := by exact_mod_cast hz.symm.trans (round53_seconds habs)
  have hself : x = n ↔ round53 n = n := by
    rw [hx]
    exact_mod_cast Iff.rfl
  rw [← round53_natCast_eq_self_iff, ← hself]
  omega

/-- From there on to `2 ^ 63` the numbers of 53 bits are 1024 apart. -/
theorem round53_large {m : ℕ} (hlo : 2 ^ 62 ≤ m) (hhi : m ≤ 2 ^ 63) :
    ∃ c : ℤ, round53 m = (1024 * c : ℤ) ∧ NearestQuotient m 1024 c := by
  rcases hhi.lt_or_eq with hlt | rfl
  · have hround := round53_natCast (k := 10) hlo hlt
    refine ⟨_, ?_, nearestQuotient_roundEven m (d := 1024) (by norm_num)⟩
    rw [hround, mul_comm]
    norm_num
  · have hround := round53_mul_zpow (m := 2 ^ 53) (by norm_num) 10
    refine ⟨2 ^ 53, ?_, by norm_num [NearestQuotient]⟩
    norm_num at hround ⊢
    exact hround

/-- The seconds of a quotient with `j` bits below the point. -/
theorem secondsOf_eq_div {n : ℕ} {x : ℤ} (hx : round53 n = x) (j : ℕ)
    (hlo : 2 ^ 52 * 10 ^ 9 ≤ x * 2 ^ j) (hhi : x * 2 ^ j < 2 ^ 53 * 10 ^ 9) :
    ∃ r : ℤ, secondsOf n = r / 2 ^ j ∧ NearestQuotient (x * 2 ^ j) (10 ^ 9) r := by
  have hj : (0 : ℚ) < 2 ^ j := pow_pos two_pos j
  have hx0 : 0 ≤ x := by
    by_contra hneg
    have := mul_neg_of_neg_of_pos (not_le.mp hneg) (pow_pos (two_pos : (0 : ℤ) < 2) j)
    omega
  have hx0' : (0 : ℚ) ≤ x := by exact_mod_cast hx0
  have habs : |(x : ℚ) / 10 ^ 9| = (x : ℚ) / 10 ^ 9 := abs_of_nonneg (by positivity)
  have hlo' : (2 : ℚ) ^ (52 + -j : ℤ) ≤ |(x : ℚ) / 10 ^ 9| := by
    rw [habs, zpow_add₀ two_ne_zero, zpow_neg, zpow_natCast, ← div_eq_mul_inv,
      div_le_div_iff₀ hj (by norm_num)]
    exact_mod_cast hlo
  have hhi' : |(x : ℚ) / 10 ^ 9| < (2 : ℚ) ^ (53 + -j : ℤ) := by
    rw [habs, zpow_add₀ two_ne_zero, zpow_neg, zpow_natCast, ← div_eq_mul_inv,
      div_lt_div_iff₀ (by norm_num) hj]
    exact_mod_cast hhi
  have hquot : (x : ℚ) / 10 ^ 9 / 2 ^ (-j : ℤ) = ((x * 2 ^ j : ℤ) : ℚ) / ((10 ^ 9 : ℤ) : ℚ) := by
    rw [zpow_neg, zpow_natCast, div_inv_eq_mul]
    push_cast
    ring
  refine ⟨_, ?_, nearestQuotient_roundEven (x * 2 ^ j) (d := 10 ^ 9) (by norm_num)⟩
  have hfloor := Rat.floor_intCast_div_natCast
    (roundEven (((x * 2 ^ j : ℤ) : ℚ) / ((10 ^ 9 : ℤ) : ℚ))) (2 ^ j)
  rw [secondsOf, Int.cast_natCast, hx, truncate_of_nonneg (round53_nonneg (by positivity)),
    round53_of_bounds hlo' hhi', hquot, zpow_neg, zpow_natCast, ← div_eq_mul_inv]
  push_cast at hfloor ⊢
  exact hfloor

/-- A quotient of ten digits has 20 or 19 bits below the point. With 19 it is rounded up to the
next second from 512 nanoseconds before it. -/
theorem secondsOf_large {n : ℕ} {c : ℤ} (hx : round53 n = (1024 * c : ℤ)) (hlo : 2 ^ 62 ≤ 1024 * c)
    (hhi : 1024 * c ≤ 2 ^ 63) :
    secondsOf n = if 1024 * c < 2 ^ 33 * 10 ^ 9 then 1024 * c / 10 ^ 9
      else (1024 * c + 512) / 10 ^ 9 := by
  split_ifs with hlt
  · obtain ⟨r, hs, h1, h2, h3⟩ := secondsOf_eq_div hx 20 (by omega) (by omega)
    rw [hs]
    omega
  · obtain ⟨r, hs, h1, h2, h3⟩ := secondsOf_eq_div hx 19 (by omega) (by omega)
    rw [hs]
    omega

/-- The numbers of nanoseconds, up to their sign, that come out right. Below `2 ^ 62` these are the
numbers of at most 53 bits. From there on such numbers are 1024 apart, and the nanoseconds of an odd
number of seconds are halfway between two of them: an error that the same error of the number
itself makes up for. The exceptions are next to a whole second, where the quotient is rounded to
another second. -/
def Exact (n : ℕ) : Prop :=
  if n < 2 ^ 62 then 2 ^ (Nat.log 2 n - 52) ∣ n
  else if n / 10 ^ 9 % 2 = 0 then
    1024 ∣ n % 10 ^ 9 ∧ ¬ (2 ^ 33 ≤ n / 10 ^ 9 ∧ n % 10 ^ 9 = 10 ^ 9 - 512)
  else
    2048 ∣ n % 10 ^ 9 ∧ ¬ (n / 10 ^ 9 % 4 = 1 ∧ n / 10 ^ 9 < 2 ^ 33 ∧ n % 10 ^ 9 = 0) ∧
      ¬ (n / 10 ^ 9 % 4 = 3 ∧ n % 10 ^ 9 = 10 ^ 9 - 512)

instance (n : ℕ) : Decidable (Exact n) := by
  unfold Exact
  infer_instance

theorem round53_seconds_large {s : ℕ} {z : ℤ} (hz : round53 (s * 10 ^ 9) = z) (hlo : 4611686018 ≤ s)
    (hhi : s ≤ 9223372036) : ∃ d, z = 1024 * d ∧ NearestQuotient (s * 10 ^ 9) 1024 d := by
  rcases hlo.eq_or_lt with rfl | hlt
  · -- the last number of seconds below `2 ^ 62`
    have hexact := round53_seconds (s := 4611686018) (by norm_num)
    push_cast at hexact hz
    refine ⟨4503599626953125, ?_, by norm_num [NearestQuotient]⟩
    have : (z : ℚ) = 1024 * 4503599626953125 := by
      rw [← hz, hexact]
      norm_num
    exact_mod_cast this
  · obtain ⟨d, hd, hnear⟩ := round53_large (m := s * 10 ^ 9) (by omega) (by omega)
    push_cast at hd hnear
    have hzd : (z : ℚ) = 1024 * d := hz.symm.trans hd
    exact ⟨d, by exact_mod_cast hzd, hnear⟩

/-- The nearest multiple of 1024, by the place between two even ones. -/
theorem nearest_1024 {m c : ℤ} (h : NearestQuotient m 1024 c) :
    m % 2048 ≤ 512 ∧ 1024 * c = m - m % 2048 ∨
      512 < m % 2048 ∧ m % 2048 < 1536 ∧ 1024 * c = m - m % 2048 + 1024 ∨
      1536 ≤ m % 2048 ∧ 1024 * c = m - m % 2048 + 2048 := by
  obtain ⟨h1, h2, h3⟩ := h
  generalize hu : m % 2048 = u
  generalize hv : m / 2048 = v
  have hm : m = 2048 * v + u := by omega
  have hu' : 0 ≤ u ∧ u < 2048 := by omega
  clear hu hv
  subst hm
  omega

/-- The nanoseconds of odd seconds are an odd multiple of 512. -/
theorem error_seconds {s d : ℤ} (h : NearestQuotient (s * 10 ^ 9) 1024 d) :
    s % 2 = 0 ∧ 1024 * d = s * 10 ^ 9 ∨ s % 4 = 1 ∧ 1024 * d = s * 10 ^ 9 - 512 ∨
      s % 4 = 3 ∧ 1024 * d = s * 10 ^ 9 + 512 := by
  have hmod : s * 10 ^ 9 % 2048 = 512 * (s % 4) := by omega
  have hnear := nearest_1024 h
  rw [hmod] at hnear
  generalize s * 10 ^ 9 = t at *
  omega

/-- The error of `n`, which became `1024 * c`, is that of the nanoseconds of `s` seconds. -/
def ErrorsMatch (n c s : ℤ) : Prop :=
  s % 2 = 0 ∧ 1024 * c = n ∨ s % 4 = 1 ∧ 1024 * c = n - 512 ∨ s % 4 = 3 ∧ 1024 * c = n + 512

/-- The seconds of the number that was rounded to `1024 * c`. -/
def secondsAt (c : ℤ) : ℤ :=
  if 1024 * c < 2 ^ 33 * 10 ^ 9 then 1024 * c / 10 ^ 9 else (1024 * c + 512) / 10 ^ 9

theorem secondsAt_near {k r c : ℤ} (hr : 0 ≤ r ∧ r < 10 ^ 9)
    (hc : NearestQuotient (10 ^ 9 * k + r) 1024 c) :
    secondsAt c = k - 1 ∨ secondsAt c = k ∨ secondsAt c = k + 1 := by
  obtain ⟨h1, h2, -⟩ := hc
  unfold secondsAt
  split_ifs <;> omega

theorem errorsMatch_even {k r c : ℤ} (hr : 0 ≤ r ∧ r < 10 ^ 9)
    (hc : NearestQuotient (10 ^ 9 * (2 * k) + r) 1024 c) :
    ErrorsMatch (10 ^ 9 * (2 * k) + r) c (secondsAt c) ↔
      1024 ∣ r ∧ ¬ (2 ^ 33 ≤ 2 * k ∧ r = 10 ^ 9 - 512) := by
  have hs := secondsAt_near hr hc
  have hnear := nearest_1024 hc
  have hmod : (10 ^ 9 * (2 * k) + r) % 2048 = (1024 * (k % 2) + r) % 2048 := by omega
  rw [hmod] at hnear
  clear hc hmod
  unfold ErrorsMatch
  generalize hsecs : secondsAt c = s at *
  unfold secondsAt at hsecs
  -- the seconds are off by one only where the number is next to a whole second
  split_ifs at hsecs with hlt
  · rcases hs with rfl | rfl | rfl <;> rcases hnear with h | h | h <;> omega
  · rcases hs with rfl | rfl | rfl <;> rcases hnear with h | h | h <;> omega

theorem errorsMatch_odd {k r c : ℤ} (hr : 0 ≤ r ∧ r < 10 ^ 9)
    (hc : NearestQuotient (10 ^ 9 * (2 * k + 1) + r) 1024 c) :
    ErrorsMatch (10 ^ 9 * (2 * k + 1) + r) c (secondsAt c) ↔
      2048 ∣ r ∧ ¬ ((2 * k + 1) % 4 = 1 ∧ 2 * k + 1 < 2 ^ 33 ∧ r = 0) ∧
        ¬ ((2 * k + 1) % 4 = 3 ∧ r = 10 ^ 9 - 512) := by
  have hs := secondsAt_near hr hc
  have hnear := nearest_1024 hc
  have hmod : (10 ^ 9 * (2 * k + 1) + r) % 2048 = (512 + 1024 * (k % 2) + r) % 2048 := by omega
  rw [hmod] at hnear
  clear hc hmod
  unfold ErrorsMatch
  generalize hsecs : secondsAt c = s at *
  unfold secondsAt at hsecs
  split_ifs at hsecs with hlt
  · rcases hs with rfl | rfl | rfl <;> rcases hnear with h | h | h <;> omega
  · rcases hs with rfl | rfl | rfl <;> rcases hnear with h | h | h <;> omega

theorem errorsMatch_iff {n : ℕ} {c : ℤ} (hn : 2 ^ 62 ≤ n) (hc : NearestQuotient n 1024 c) :
    ErrorsMatch n c (secondsAt c) ↔ Exact n := by
  have hdiv : (n : ℤ) = 10 ^ 9 * (n / 10 ^ 9 : ℕ) + (n % 10 ^ 9 : ℕ) := by omega
  have hr : 0 ≤ ((n % 10 ^ 9 : ℕ) : ℤ) ∧ ((n % 10 ^ 9 : ℕ) : ℤ) < 10 ^ 9 := by omega
  rw [Exact, if_neg (by omega)]
  generalize n / 10 ^ 9 = k at *
  generalize n % 10 ^ 9 = r at *
  obtain ⟨j, rfl | rfl⟩ := k.even_or_odd'
  · have hdiv' : (n : ℤ) = 10 ^ 9 * (2 * j) + r := by omega
    rw [hdiv'] at hc ⊢
    rw [errorsMatch_even hr hc, if_pos (by omega)]
    omega
  · have hdiv' : (n : ℤ) = 10 ^ 9 * (2 * j + 1) + r := by omega
    rw [hdiv'] at hc ⊢
    rw [errorsMatch_odd hr hc, if_neg (by omega)]
    omega

theorem errorsMatch_of_parts {n c s d : ℤ} (h : NearestQuotient (s * 10 ^ 9) 1024 d) :
    s * 10 ^ 9 + (1024 * c - 1024 * d) = n ↔ ErrorsMatch n c s := by
  unfold ErrorsMatch
  rcases error_seconds h with ⟨hs, hd⟩ | ⟨hs, hd⟩ | ⟨hs, hd⟩ <;> rw [hd] <;> omega

/-- The seconds and the rest add up where the errors match. -/
theorem whole_of_ge {n : ℕ} (hlo : 2 ^ 62 ≤ n) (hhi : n ≤ 2 ^ 63) :
    secondsOf n * 10 ^ 9 + restOf n = n ↔ Exact n := by
  obtain ⟨x, z, hx, hz, hrest, -, h0, hle⟩ := split_spec hhi
  obtain ⟨c, hc, hnear⟩ := round53_large hlo hhi
  have hxc : x = 1024 * c := by exact_mod_cast hx.symm.trans hc
  have hcge : 2 ^ 62 ≤ 1024 * c := by
    have := hnear.1
    omega
  have hcle : 1024 * c ≤ 2 ^ 63 := by
    have := hnear.2.1
    omega
  have hs : secondsOf n = secondsAt c := secondsOf_large hc hcge hcle
  have hge : 4611686018 ≤ secondsOf n := by
    rw [hs, secondsAt]
    split_ifs <;> omega
  obtain ⟨s, hs'⟩ := Int.eq_ofNat_of_zero_le h0
  rw [hs'] at hz hge hle
  obtain ⟨d, hd, hdnear⟩ := round53_seconds_large (by exact_mod_cast hz) (by omega) (by omega)
  rw [← errorsMatch_iff hlo hnear, ← hs, hrest, hxc, hd, hs', errorsMatch_of_parts hdnear]

theorem whole_iff {n : ℕ} (h : n ≤ 2 ^ 63) : secondsOf n * 10 ^ 9 + restOf n = n ↔ Exact n := by
  rcases lt_or_ge n (2 ^ 62) with hlt | hge
  · rw [whole_of_lt hlt, Exact, if_pos hlt]
  · exact whole_of_ge hge h

/-- The duration that `nanos` are taken for. -/
theorem wholeNanoseconds_iff {nanos : Int64} {d : Duration} (hd : durationOf nanos = .ok d) :
    d.wholeNanoseconds = nanos.toInt ↔ Exact nanos.toInt.natAbs := by
  obtain ⟨d', hd', hwhole⟩ := durationOf_spec nanos
  obtain rfl := Outcome.ok.inj (hd.symm.trans hd')
  obtain ⟨h1, h2⟩ := fitsI64_toInt nanos
  rw [hwhole]
  obtain ⟨n, hn | hn⟩ := Int.eq_nat_or_neg nanos.toInt
  · rw [hn, Int.natAbs_natCast, whole_iff (by omega)]
  · rw [hn, Int.natAbs_neg, Int.natAbs_natCast, secondsOf_neg, restOf_neg, ← whole_iff (by omega)]
    omega

/-- A timespan of Node has the same length in Zeek, and comes back from there. -/
def TimespanKept (P : Platform) (nanos : Int64) : Prop :=
  ∃ d, Value.toZeek P (.timespan nanos) = .ok (.timespan d) ∧ d.wholeNanoseconds = nanos.toInt ∧
    Value.ofZeek P (.timespan d) = .ok (.timespan nanos)

/-- A timespan of Zeek comes back from Node. -/
def TimespanComesBack (P : Platform) (d : Duration) : Prop :=
  ∃ v, Value.ofZeek P (.timespan d) = .ok v ∧ Value.toZeek P v = .ok (.timespan d)

section
variable {P : Platform}

theorem ofZeek_timespan {d : Duration} (h : FitsI64 d.wholeNanoseconds) :
    Value.ofZeek P (.timespan d) = .ok (.timespan (.ofInt d.wholeNanoseconds)) := by
  rw [Value.ofZeek, if_pos h]

theorem toZeek_timespan (nanos : Int64) :
    ∃ d, durationOf nanos = .ok d ∧ Value.toZeek P (.timespan nanos) = .ok (.timespan d) := by
  obtain ⟨d, hd, -⟩ := durationOf_spec nanos
  exact ⟨d, hd, by simp [Value.toZeek, hd]⟩

theorem timespanKept_iff (nanos : Int64) : TimespanKept P nanos ↔ Exact nanos.toInt.natAbs := by
  obtain ⟨d, hd, hto⟩ := toZeek_timespan (P := P) nanos
  rw [← wholeNanoseconds_iff hd]
  refine ⟨?_, ?_⟩
  · rintro ⟨d', hto', hwhole, -⟩
    rw [hto] at hto'
    simp only [Outcome.ok.injEq, ZWS.Value.timespan.injEq] at hto'
    rw [hto', hwhole]
  · intro hwhole
    refine ⟨d, hto, hwhole, ?_⟩
    rw [ofZeek_timespan (hwhole ▸ fitsI64_toInt nanos), hwhole, Int64.ofInt_toInt]

theorem timespanComesBack_iff {d : Duration} (h : FitsI64 d.wholeNanoseconds) :
    TimespanComesBack P d ↔ Exact d.wholeNanoseconds.natAbs := by
  obtain ⟨d', hd', hto⟩ := toZeek_timespan (P := P) (.ofInt d.wholeNanoseconds)
  have hiff := wholeNanoseconds_iff hd'
  rw [h.toInt_ofInt] at hiff
  rw [← hiff]
  refine ⟨?_, ?_⟩
  · rintro ⟨v, hv, hback⟩
    rw [ofZeek_timespan h] at hv
    obtain rfl := Outcome.ok.inj hv
    rw [hto] at hback
    simp only [Outcome.ok.injEq, ZWS.Value.timespan.injEq] at hback
    rw [hback]
  · intro hwhole
    refine ⟨_, ofZeek_timespan h, ?_⟩
    rw [hto, Duration.ext_of_wholeNanoseconds hwhole]

end

/-- Timespans go to Zeek and back, from either side, exactly if `f64` arithmetic keeps their
nanoseconds. -/
theorem timespans_exact_iff (P : Platform) :
    (∀ nanos, TimespanKept P nanos ↔ Exact nanos.toInt.natAbs) ∧
      ∀ d, FitsI64 d.wholeNanoseconds → (TimespanComesBack P d ↔ Exact d.wholeNanoseconds.natAbs) :=
  ⟨timespanKept_iff, fun _ => timespanComesBack_iff⟩

/-- An odd number of seconds that comes out right, and the next one, which does not. -/
example : Exact 4611686019000000000 ∧ ¬ Exact 4611686021000000000 := by decide

/-- A number that `f64` has, of an odd number of seconds. The 512 nanoseconds are lost on the way. -/
theorem odd_not_kept : ¬ TimespanKept Sample.utcPlatform 4611686019000000512 := by
  rw [timespanKept_iff]
  decide

end Node

end ZWS
