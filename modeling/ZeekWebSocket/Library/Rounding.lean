import Mathlib

/-! Floating-point arithmetic as exact arithmetic on rationals that is rounded to 53 significant
bits, and the casts from it to integers. -/

namespace Base

/-- The nearest integer, the even one of two. -/
def roundEven (q : ℚ) : ℤ :=
  if q - ⌊q⌋ < 1 / 2 then ⌊q⌋
  else if 1 / 2 < q - ⌊q⌋ then ⌊q⌋ + 1
  else ⌊q⌋ + ⌊q⌋ % 2

/-- The distance between the numbers of 53 bits around `q`. -/
def ulp (q : ℚ) : ℚ := 2 ^ (Int.log 2 |q| - 52)

/-- The nearest number of 53 significant bits, ties to even. -/
def round53 (q : ℚ) : ℚ := if q = 0 then 0 else roundEven (q / ulp q) * ulp q

/-- The integer part, towards zero. -/
def truncate (q : ℚ) : ℤ := if q < 0 then ⌈q⌉ else ⌊q⌋

/-- `as i64` and the like truncate, and saturate at the bounds of the type. -/
def castInt (lo hi : ℤ) (q : ℚ) : ℤ := max lo (min hi (truncate q))

/-- No integer is nearer, and it is even if one is as near. -/
def NearestEven (q : ℚ) (k : ℤ) : Prop := |k - q| < 1 / 2 ∨ |k - q| = 1 / 2 ∧ 2 ∣ k

theorem NearestEven.error_le {q : ℚ} {k : ℤ} (h : NearestEven q k) : |k - q| ≤ 1 / 2 := by
  rcases h with h | ⟨h, -⟩
  · exact h.le
  · exact h.le

theorem NearestEven.neg {q : ℚ} {k : ℤ} (h : NearestEven q k) : NearestEven (-q) (-k) := by
  have hsub : |((-k : ℤ) : ℚ) - -q| = |(k : ℚ) - q| := by
    rw [Int.cast_neg, neg_sub_neg, abs_sub_comm]
  simpa only [NearestEven, hsub, dvd_neg] using h

theorem NearestEven.unique {q : ℚ} {k l : ℤ} (hk : NearestEven q k) (hl : NearestEven q l) : k = l := by
  by_contra hne
  have hgap : (1 : ℚ) ≤ |(k : ℚ) - l| := by
    have hint : 1 ≤ |k - l| := Int.one_le_abs (sub_ne_zero.mpr hne)
    exact_mod_cast hint
  have htri : |(k : ℚ) - l| ≤ |k - q| + |l - q| := by
    rw [abs_sub_comm (l : ℚ) q]
    exact abs_sub_le _ _ _
  have hk' := hk.error_le
  have hl' := hl.error_le
  have hkEven : 2 ∣ k := by
    rcases hk with hlt | ⟨-, hev⟩
    · linarith
    · exact hev
  have hlEven : 2 ∣ l := by
    rcases hl with hlt | ⟨-, hev⟩
    · linarith
    · exact hev
  have hclose : |k - l| ≤ 1 := by
    have : |(k : ℚ) - l| ≤ 1 := by linarith
    exact_mod_cast this
  have := abs_le.mp hclose
  omega

theorem nearestEven_roundEven (q : ℚ) : NearestEven q (roundEven q) := by
  have hlo := Int.floor_le q
  have hhi := Int.lt_floor_add_one q
  unfold roundEven NearestEven
  split_ifs with hbelow habove
  · left
    rw [abs_sub_comm, abs_of_nonneg (by linarith)]
    exact hbelow
  · left
    rw [abs_of_nonneg (by push_cast; linarith)]
    push_cast
    linarith
  · right
    have hhalf : q = ⌊q⌋ + 1 / 2 := by linarith
    refine ⟨?_, by omega⟩
    rcases Int.emod_two_eq ⌊q⌋ with hev | hodd
    · rw [hev, abs_sub_comm, abs_of_nonneg (by push_cast; linarith)]
      push_cast
      linarith
    · rw [hodd, abs_of_nonneg (by push_cast; linarith)]
      push_cast
      linarith

theorem roundEven_eq_iff {q : ℚ} {k : ℤ} : roundEven q = k ↔ NearestEven q k := by
  refine ⟨?_, fun h => (nearestEven_roundEven q).unique h⟩
  rintro rfl
  exact nearestEven_roundEven q

@[simp] theorem roundEven_intCast (k : ℤ) : roundEven k = k := by
  rw [roundEven_eq_iff]
  left
  simp

theorem roundEven_neg (q : ℚ) : roundEven (-q) = -roundEven q :=
  roundEven_eq_iff.mpr (nearestEven_roundEven q).neg

/-- The nearest integer to `m / d`, even if it is one of two, without fractions. -/
def NearestQuotient (m d k : ℤ) : Prop :=
  -d ≤ 2 * (d * k - m) ∧ 2 * (d * k - m) ≤ d ∧
    (2 * (d * k - m) = -d ∨ 2 * (d * k - m) = d → 2 ∣ k)

theorem nearestQuotient_iff {m d k : ℤ} :
    NearestQuotient m d k ↔ 2 * |d * k - m| < d ∨ 2 * |d * k - m| = d ∧ 2 ∣ k := by
  unfold NearestQuotient
  rcases abs_cases (d * k - m) with ⟨h, hsign⟩ | ⟨h, hsign⟩ <;> rw [h] <;> omega

theorem roundEven_div_eq_iff {m d k : ℤ} (hd : 0 < d) :
    roundEven (m / d) = k ↔ NearestQuotient m d k := by
  have hd' : (0 : ℚ) < d := by exact_mod_cast hd
  have habs : |(k : ℚ) - m / d| = ((|d * k - m| : ℤ) : ℚ) / d := by
    rw [eq_div_iff hd'.ne', Int.cast_abs, ← abs_of_pos hd', ← abs_mul, abs_of_pos hd']
    congr 1
    push_cast
    field_simp
  have hlt : |(k : ℚ) - m / d| < 1 / 2 ↔ 2 * |d * k - m| < d := by
    rw [habs, div_lt_div_iff₀ hd' two_pos, mul_comm, one_mul]
    exact_mod_cast Iff.rfl
  have heq : |(k : ℚ) - m / d| = 1 / 2 ↔ 2 * |d * k - m| = d := by
    rw [habs, div_eq_div_iff hd'.ne' two_ne_zero, mul_comm, one_mul]
    exact_mod_cast Iff.rfl
  rw [roundEven_eq_iff, NearestEven, hlt, heq, nearestQuotient_iff]

theorem nearestQuotient_roundEven (m : ℤ) {d : ℤ} (hd : 0 < d) :
    NearestQuotient m d (roundEven (m / d)) :=
  (roundEven_div_eq_iff hd).mp rfl

theorem ulp_pos (q : ℚ) : 0 < ulp q := zpow_pos two_pos _

theorem ulp_neg (q : ℚ) : ulp (-q) = ulp q := by rw [ulp, ulp, abs_neg]

/-- The distance is the same within a binade. -/
theorem ulp_of_bounds {q : ℚ} {e : ℤ} (hlo : 2 ^ (52 + e) ≤ |q|) (hhi : |q| < 2 ^ (53 + e)) :
    ulp q = 2 ^ e := by
  have hpos : 0 < |q| := lt_of_lt_of_le (zpow_pos two_pos _) hlo
  have h1 : 52 + e ≤ Int.log 2 |q| :=
    (Int.zpow_le_iff_le_log (b := 2) one_lt_two hpos).mp (by exact_mod_cast hlo)
  have h2 : Int.log 2 |q| < 53 + e :=
    (Int.lt_zpow_iff_log_lt (b := 2) one_lt_two hpos).mp (by exact_mod_cast hhi)
  rw [ulp]
  congr 1
  omega

@[simp] theorem round53_zero : round53 0 = 0 := if_pos rfl

theorem round53_of_ne_zero {q : ℚ} (h : q ≠ 0) : round53 q = roundEven (q / ulp q) * ulp q :=
  if_neg h

theorem round53_neg (q : ℚ) : round53 (-q) = -round53 q := by
  by_cases h : q = 0
  · simp [h]
  · rw [round53_of_ne_zero (neg_ne_zero.mpr h), round53_of_ne_zero h, ulp_neg, neg_div, roundEven_neg]
    push_cast
    ring

theorem round53_of_bounds {q : ℚ} {e : ℤ} (hlo : 2 ^ (52 + e) ≤ |q|) (hhi : |q| < 2 ^ (53 + e)) :
    round53 q = roundEven (q / 2 ^ e) * 2 ^ e := by
  have hq : q ≠ 0 := by
    rintro rfl
    rw [abs_zero] at hlo
    exact absurd hlo (not_le.mpr (zpow_pos two_pos _))
  rw [round53_of_ne_zero hq, ulp_of_bounds hlo hhi]

theorem abs_round53_sub_le (q : ℚ) : |round53 q - q| ≤ ulp q / 2 := by
  by_cases h : q = 0
  · rw [h, round53_zero, sub_zero, abs_zero]
    exact (half_pos (ulp_pos 0)).le
  · have hu := ulp_pos q
    have hle := (nearestEven_roundEven (q / ulp q)).error_le
    rw [round53_of_ne_zero h]
    calc |(roundEven (q / ulp q) : ℚ) * ulp q - q|
        = |(roundEven (q / ulp q) : ℚ) - q / ulp q| * ulp q := by
          rw [← abs_of_pos hu, ← abs_mul, abs_of_pos hu, sub_mul, div_mul_cancel₀ _ hu.ne']
      _ ≤ 1 / 2 * ulp q := mul_le_mul_of_nonneg_right hle hu.le
      _ = ulp q / 2 := by ring

/-- An upper bound on the distance. -/
theorem ulp_le {q : ℚ} (hq : q ≠ 0) {e : ℤ} (h : |q| < 2 ^ (53 + e)) : ulp q ≤ 2 ^ e := by
  have hlog : Int.log 2 |q| < 53 + e :=
    (Int.lt_zpow_iff_log_lt (b := 2) one_lt_two (abs_pos.mpr hq)).mp (by exact_mod_cast h)
  exact zpow_le_zpow_right₀ one_le_two (by omega)

/-- A multiple of a power of two that is not above 53 bits is not rounded. -/
theorem round53_mul_zpow {m : ℤ} (hm : |m| ≤ 2 ^ 53) (e : ℤ) : round53 (m * 2 ^ e) = m * 2 ^ e := by
  by_cases h0 : (m : ℚ) * 2 ^ e = 0
  · rw [h0, round53_zero]
  have hint : ∃ k : ℤ, (m : ℚ) * 2 ^ e / ulp (m * 2 ^ e) = k := by
    have habs : |(m : ℚ) * 2 ^ e| = |(m : ℚ)| * 2 ^ e := by
      rw [abs_mul, abs_of_pos (zpow_pos two_pos e : (0 : ℚ) < 2 ^ e)]
    rcases hm.lt_or_eq with hlt | heq
    · -- the distance is a smaller power of two
      have hlt' : |(m : ℚ)| < 2 ^ (53 : ℤ) := by exact_mod_cast hlt
      have hbound : |(m : ℚ) * 2 ^ e| < 2 ^ (53 + e) := by
        rw [habs, zpow_add₀ two_ne_zero]
        exact mul_lt_mul_of_pos_right hlt' (zpow_pos two_pos e)
      have hlog : Int.log 2 |(m : ℚ) * 2 ^ e| < 53 + e :=
        (Int.lt_zpow_iff_log_lt (b := 2) one_lt_two (abs_pos.mpr h0)).mp (by exact_mod_cast hbound)
      obtain ⟨n, hn⟩ := Int.eq_ofNat_of_zero_le
        (show 0 ≤ e - (Int.log 2 |(m : ℚ) * 2 ^ e| - 52) by omega)
      refine ⟨m * 2 ^ n, ?_⟩
      rw [ulp, mul_div_assoc, ← zpow_sub₀ two_ne_zero, hn]
      push_cast
      rw [zpow_natCast]
    · -- the next binade starts here
      have heq' : |(m : ℚ)| = 2 ^ (53 : ℤ) := by exact_mod_cast heq
      have hulp : ulp ((m : ℚ) * 2 ^ e) = 2 ^ (e + 1) := by
        refine ulp_of_bounds ?_ ?_
        · rw [habs, heq', ← zpow_add₀ two_ne_zero]
          exact zpow_le_zpow_right₀ one_le_two (by omega)
        · rw [habs, heq', ← zpow_add₀ two_ne_zero]
          exact zpow_lt_zpow_right₀ one_lt_two (by omega)
      obtain ⟨k, rfl⟩ : 2 ∣ m := by
        rcases abs_choice m with h | h <;> rw [h] at heq <;> omega
      refine ⟨k, ?_⟩
      rw [hulp, zpow_add_one₀ two_ne_zero]
      have hne : (2 : ℚ) ^ e ≠ 0 := (zpow_pos two_pos e).ne'
      push_cast
      field_simp
  obtain ⟨k, hk⟩ := hint
  rw [round53_of_ne_zero h0, hk, roundEven_intCast, ← hk, div_mul_cancel₀ _ (ulp_pos _).ne']

theorem round53_intCast {m : ℤ} (hm : |m| ≤ 2 ^ 53) : round53 m = m := by
  simpa using round53_mul_zpow hm 0

theorem round53_nonneg {q : ℚ} (h : 0 ≤ q) : 0 ≤ round53 q := by
  by_cases h0 : q = 0
  · rw [h0, round53_zero]
  have hquot : 0 ≤ q / ulp q := div_nonneg h (ulp_pos q).le
  obtain ⟨hle, -⟩ := abs_le.mp (nearestEven_roundEven (q / ulp q)).error_le
  have hround : (-1 : ℚ) < roundEven (q / ulp q) := by linarith
  have hround' : -1 < roundEven (q / ulp q) := by exact_mod_cast hround
  have : (0 : ℚ) ≤ roundEven (q / ulp q) := by exact_mod_cast Int.lt_iff_add_one_le.mp hround'
  rw [round53_of_ne_zero h0]
  exact mul_nonneg this (ulp_pos q).le

/-- Beyond 53 bits integers are rounded to multiples of a power of two. -/
theorem round53_natCast {n : ℕ} {k : ℕ} (hlo : 2 ^ (52 + k) ≤ n) (hhi : n < 2 ^ (53 + k)) :
    round53 n = (roundEven ((n : ℤ) / (2 ^ k : ℤ) : ℚ) * 2 ^ k : ℤ) := by
  have hlo' : (2 : ℚ) ^ (52 + k : ℤ) ≤ |(n : ℚ)| := by
    rw [abs_of_nonneg (Nat.cast_nonneg n)]
    exact_mod_cast hlo
  have hhi' : |(n : ℚ)| < (2 : ℚ) ^ (53 + k : ℤ) := by
    rw [abs_of_nonneg (Nat.cast_nonneg n)]
    exact_mod_cast hhi
  rw [round53_of_bounds hlo' hhi', zpow_natCast]
  push_cast
  rfl

theorem exists_binade {n : ℕ} (h : 2 ^ 53 ≤ n) :
    ∃ k, Nat.log 2 n = 52 + k ∧ 2 ^ (52 + k) ≤ n ∧ n < 2 ^ (53 + k) := by
  have hn : n ≠ 0 := by
    rintro rfl
    simp at h
  obtain ⟨k, hk⟩ := Nat.exists_eq_add_of_le
    ((show 52 ≤ 53 by decide).trans (Nat.le_log_of_pow_le one_lt_two h))
  refine ⟨k, hk, hk ▸ Nat.pow_log_le_self 2 hn, ?_⟩
  have hlt := Nat.lt_pow_succ_log_self one_lt_two n
  rwa [hk, show (52 + k).succ = 53 + k by omega] at hlt

/-- The integers of at most 53 significant bits. -/
theorem round53_natCast_eq_self_iff {n : ℕ} : round53 n = n ↔ 2 ^ (Nat.log 2 n - 52) ∣ n := by
  rcases lt_or_ge n (2 ^ 53) with hlt | hge
  · have hself : round53 (n : ℤ) = (n : ℤ) := round53_intCast (by rw [Nat.abs_cast]; exact_mod_cast hlt.le)
    have hlog : Nat.log 2 n - 52 = 0 := by
      have := Nat.log_lt_of_lt_pow' (b := 2) (x := 53) (by decide) hlt
      omega
    simpa [hlog] using hself
  · obtain ⟨k, hk, hlo, hhi⟩ := exists_binade hge
    rw [round53_natCast hlo hhi, hk, Nat.add_sub_cancel_left]
    have hpow : (0 : ℤ) < 2 ^ k := pow_pos two_pos k
    refine ⟨?_, ?_⟩
    · intro heq
      have heq' : roundEven ((n : ℤ) / (2 ^ k : ℤ) : ℚ) * 2 ^ k = (n : ℤ) := by exact_mod_cast heq
      exact_mod_cast Dvd.intro_left _ heq'
    · rintro ⟨c, rfl⟩
      have hdiv : ((2 ^ k * c : ℕ) : ℤ) / ((2 ^ k : ℤ) : ℚ) = ((c : ℤ) : ℚ) := by
        push_cast
        field_simp
      rw [hdiv, roundEven_intCast]
      push_cast
      ring

theorem exists_round53_natCast (n : ℕ) : ∃ x : ℤ, round53 n = x := by
  rcases lt_or_ge n (2 ^ 53) with hlt | hge
  · exact ⟨n, round53_intCast (by rw [Nat.abs_cast]; exact_mod_cast hlt.le)⟩
  · obtain ⟨k, -, hlo, hhi⟩ := exists_binade hge
    exact ⟨_, round53_natCast hlo hhi⟩

@[simp] theorem truncate_intCast (k : ℤ) : truncate k = k := by
  simp [truncate]

theorem truncate_of_nonneg {q : ℚ} (h : 0 ≤ q) : truncate q = ⌊q⌋ := if_neg (not_lt.mpr h)

theorem truncate_neg (q : ℚ) : truncate (-q) = -truncate q := by
  unfold truncate
  rcases lt_trichotomy q 0 with h | rfl | h
  · rw [if_neg (by linarith), if_pos h, Int.floor_neg]
  · simp
  · rw [if_pos (by linarith), if_neg (by linarith), Int.ceil_neg]

theorem castInt_of_mem {lo hi : ℤ} {q : ℚ} (hlo : lo ≤ truncate q) (hhi : truncate q ≤ hi) :
    castInt lo hi q = truncate q := by
  rw [castInt, min_eq_right hhi, max_eq_right hlo]

end Base
