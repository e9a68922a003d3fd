import Mathlib

/-! Integers as decimal text and string slices at byte offsets, as the standard
library reads, prints and cuts them. -/

namespace Base

/-! Reading an integer. -/

/-- `std::num::IntErrorKind`. -/
inductive IntErrorKind where
  | empty
  | invalidDigit
  | posOverflow
  | negOverflow
  deriving DecidableEq, Repr

/-- The digit loop of `from_str`, over the magnitude read so far. -/
def readDigits (bound : ℕ) (ovf : IntErrorKind) (acc : ℕ) : List Char → Except IntErrorKind ℕ
  | [] => .ok acc
  | c :: cs =>
    if c.isDigit then
      let next := 10 * acc + (c.toNat - '0'.toNat)
      if next ≤ bound then readDigits bound ovf next cs else .error ovf
    else .error .invalidDigit

/-- `from_str` of the integer type with values `lo ..= hi`. -/
def parseInt (lo hi : ℤ) : List Char → Except IntErrorKind ℤ
  | [] => .error .empty
  | c :: cs =>
    if (c = '+' ∨ c = '-') ∧ cs = [] then .error .invalidDigit
    else if c = '+' then (readDigits hi.toNat .posOverflow 0 cs).map fun m : ℕ => (m : ℤ)
    -- an unsigned type takes `-` for a digit
    else if c = '-' ∧ lo < 0 then
      (readDigits (-lo).toNat .negOverflow 0 cs).map fun m : ℕ => -(m : ℤ)
    else (readDigits hi.toNat .posOverflow 0 (c :: cs)).map fun m : ℕ => (m : ℤ)

/-- The integers that `i64::try_from` takes. -/
def FitsI64 (n : ℤ) : Prop := -2 ^ 63 ≤ n ∧ n < 2 ^ 63

instance (n : ℤ) : Decidable (FitsI64 n) := inferInstanceAs (Decidable (_ ∧ _))

theorem fitsI64_toInt (n : Int64) : FitsI64 n.toInt := ⟨n.le_toInt, n.toInt_lt⟩

theorem FitsI64.toInt_ofInt {n : ℤ} (h : FitsI64 n) : (Int64.ofInt n).toInt = n :=
  Int64.toInt_ofInt_of_le h.1 h.2

/-- `i64::from_str`. -/
def parseI64 (cs : List Char) : Except IntErrorKind Int64 :=
  (parseInt (-2 ^ 63) (2 ^ 63 - 1) cs).map Int64.ofInt

/-- `u16::from_str`. -/
def parseU16 (cs : List Char) : Except IntErrorKind UInt16 :=
  (parseInt 0 (2 ^ 16 - 1) cs).map fun n => UInt16.ofNat n.toNat

theorem le_ofDigitChars (cs : List Char) (acc : ℕ) : acc ≤ Nat.ofDigitChars 10 cs acc := by
  induction cs generalizing acc with
  | nil => simp
  | cons c cs ih =>
    rw [Nat.ofDigitChars_cons]
    exact le_trans (by omega) (ih _)

theorem readDigits_eq_ok {bound acc n : ℕ} {ovf : IntErrorKind} {cs : List Char}
    (hacc : acc ≤ bound) :
    readDigits bound ovf acc cs = .ok n ↔
      (∀ c ∈ cs, c.isDigit) ∧ n = Nat.ofDigitChars 10 cs acc ∧ n ≤ bound := by
  induction cs generalizing acc with
  | nil =>
    simp only [readDigits, Except.ok.injEq, Nat.ofDigitChars_nil]
    refine ⟨?_, ?_⟩
    · rintro rfl; exact ⟨by simp, rfl, hacc⟩
    · rintro ⟨-, rfl, -⟩; rfl
  | cons c cs ih =>
    simp only [readDigits, Nat.ofDigitChars_cons, List.forall_mem_cons]
    split
    · next hc =>
      split
      · next hle => rw [ih hle]; simp [hc]
      · next hgt =>
        have := le_ofDigitChars cs (10 * acc + (c.toNat - '0'.toNat))
        refine ⟨?_, ?_⟩
        · intro h; simp at h
        · rintro ⟨-, rfl, hn⟩; omega
    · next hc => simp [hc]

theorem map_readDigits_eq_ok {bound : ℕ} {ovf : IntErrorKind} {cs : List Char} {f : ℕ → ℤ} {n : ℤ} :
    (readDigits bound ovf 0 cs).map f = .ok n ↔
      (∀ c ∈ cs, c.isDigit) ∧ n = f (Nat.ofDigitChars 10 cs 0) ∧
        Nat.ofDigitChars 10 cs 0 ≤ bound := by
  have key : ∀ m, readDigits bound ovf 0 cs = .ok m ↔
      (∀ c ∈ cs, c.isDigit) ∧ m = Nat.ofDigitChars 10 cs 0 ∧ m ≤ bound :=
    fun m => readDigits_eq_ok (Nat.zero_le bound)
  cases h : readDigits bound ovf 0 cs with
  | error e =>
    simp only [h, reduceCtorEq, false_iff] at key
    simp only [Except.map, reduceCtorEq, false_iff]
    intro hread
    obtain ⟨hd, -, hb⟩ := hread
    exact key _ ⟨hd, rfl, hb⟩
  | ok m =>
    obtain ⟨hd, rfl, hb⟩ := (key m).mp h
    simp only [Except.map, Except.ok.injEq]
    exact ⟨fun hn => ⟨hd, hn.symm, hb⟩, fun hn => hn.2.1.symm⟩

/-- An integer that was read is one the type holds. -/
theorem parseInt_mem {lo hi n : ℤ} {cs : List Char} (hlo : lo ≤ 0) (hhi : 0 ≤ hi)
    (h : parseInt lo hi cs = .ok n) : lo ≤ n ∧ n ≤ hi := by
  cases cs with
  | nil => simp [parseInt] at h
  | cons c cs =>
    simp only [parseInt] at h
    split_ifs at h with h1 h2 h3
    all_goals
      obtain ⟨-, rfl, hb⟩ := map_readDigits_eq_ok.mp h
      omega

theorem isDigit_ne_sign {c : Char} (h : c.isDigit) : c ≠ '+' ∧ c ≠ '-' := by
  constructor <;> rintro rfl <;> exact absurd h (by decide)

/-- One or more digits with an optional minus, and the integer they spell. -/
inductive Decimal : List Char → ℤ → Prop
  | plain {ds} : ds ≠ [] → (∀ d ∈ ds, d.isDigit) → Decimal ds (Nat.ofDigitChars 10 ds 0)
  | minus {ds} : ds ≠ [] → (∀ d ∈ ds, d.isDigit) →
      Decimal ('-' :: ds) (-(Nat.ofDigitChars 10 ds 0 : ℤ))

/-- A signed type reads the decimals that it can hold, apart from those with a plus. -/
theorem parseInt_eq_ok_iff {lo hi n : ℤ} {cs : List Char} (hlo : lo < 0) (hhi : 0 ≤ hi)
    (hplus : '+' ∉ cs) : parseInt lo hi cs = .ok n ↔ Decimal cs n ∧ lo ≤ n ∧ n ≤ hi := by
  cases cs with
  | nil =>
    refine ⟨by simp [parseInt], fun h => ?_⟩
    obtain ⟨hd, -⟩ := h
    cases hd with
    | plain hne => exact absurd rfl hne
  | cons c cs =>
    have hc : c ≠ '+' := fun heq => hplus (by simp [heq])
    by_cases hminus : c = '-'
    · subst hminus
      by_cases hcs : cs = []
      · subst hcs
        refine ⟨by simp [parseInt], fun h => ?_⟩
        obtain ⟨hd, -⟩ := h
        cases hd with
        | plain _ hds => exact absurd (hds '-' (by simp)) (by decide)
        | minus hne => exact absurd rfl hne
      · simp only [parseInt, hcs, and_false, if_false, show ¬ '-' = '+' by decide, true_and, hlo, if_true,
          map_readDigits_eq_ok]
        refine ⟨?_, ?_⟩
        · intro h
          obtain ⟨hds, rfl, hb⟩ := h
          exact ⟨.minus hcs hds, by omega, by omega⟩
        · intro h
          obtain ⟨hd, hn⟩ := h
          cases hd with
          | plain _ hds => exact absurd (hds '-' (by simp)) (by decide)
          | minus _ hds => exact ⟨hds, rfl, by omega⟩
    · simp only [parseInt, hc, hminus, or_self, false_and, if_false, map_readDigits_eq_ok]
      refine ⟨?_, ?_⟩
      · intro h
        obtain ⟨hds, rfl, hb⟩ := h
        exact ⟨.plain (by simp) hds, by omega, by omega⟩
      · intro h
        obtain ⟨hd, hn⟩ := h
        cases hd with
        | plain _ hds => exact ⟨hds, rfl, by omega⟩
        | minus => exact absurd rfl hminus

theorem toList_repr_nonneg {n : ℤ} (h : 0 ≤ n) : n.repr.toList = Nat.toDigits 10 n.toNat := by
  rw [Int.repr_eq_if, if_pos h, Nat.toList_repr]

theorem toList_repr_neg {n : ℤ} (h : n < 0) : n.repr.toList = '-' :: Nat.toDigits 10 (-n).toNat := by
  rw [Int.repr_eq_if, if_neg (by omega), String.toList_append, Nat.toList_repr]
  rfl

theorem isDigit_toDigits (n : ℕ) : ∀ c ∈ Nat.toDigits 10 n, c.isDigit := fun _ hc =>
  Nat.isDigit_of_mem_toDigits (by decide) (by decide) hc

/-- A printed integer reads back, for every integer type that holds it. -/
theorem parseInt_repr {lo hi n : ℤ} (hlo : lo ≤ n) (hhi : n ≤ hi) :
    parseInt lo hi n.repr.toList = .ok n := by
  rcases lt_or_ge n 0 with hn | hn
  · rw [toList_repr_neg hn]
    have hne : Nat.toDigits 10 (-n).toNat ≠ [] := Nat.toDigits_ne_nil
    simp only [parseInt, hne, and_false, if_false, show ¬ '-' = '+' by decide, true_and,
      show lo < 0 by omega, if_true, map_readDigits_eq_ok]
    exact ⟨isDigit_toDigits _, by rw [Nat.ofDigitChars_ten_toDigits]; omega,
      by rw [Nat.ofDigitChars_ten_toDigits]; omega⟩
  · rw [toList_repr_nonneg hn]
    obtain ⟨c, cs, hc⟩ : ∃ c cs, Nat.toDigits 10 n.toNat = c :: cs :=
      List.exists_cons_of_ne_nil Nat.toDigits_ne_nil
    have hd := isDigit_toDigits n.toNat
    rw [hc] at hd ⊢
    obtain ⟨h1, h2⟩ := isDigit_ne_sign (hd c (by simp))
    simp only [parseInt, h1, h2, or_self, false_and, if_false, map_readDigits_eq_ok]
    rw [← hc] at hd ⊢
    exact ⟨hd, by rw [Nat.ofDigitChars_ten_toDigits]; omega,
      by rw [Nat.ofDigitChars_ten_toDigits]; omega⟩

theorem parseI64_eq_ok {n : Int64} {cs : List Char} :
    parseI64 cs = .ok n ↔ parseInt (-2 ^ 63) (2 ^ 63 - 1) cs = .ok n.toInt := by
  unfold parseI64
  cases h : parseInt (-2 ^ 63) (2 ^ 63 - 1) cs with
  | error e => simp [Except.map]
  | ok m =>
    obtain ⟨hlo, hhi⟩ := parseInt_mem (by norm_num) (by norm_num) h
    simp only [Except.map, Except.ok.injEq]
    refine ⟨?_, ?_⟩
    · rintro rfl; rw [Int64.toInt_ofInt_of_le hlo (by omega)]
    · rintro rfl; exact Int64.ofInt_toInt n

theorem parseI64_repr (n : Int64) : parseI64 n.toInt.repr.toList = .ok n := by
  have := n.toInt_lt
  exact parseI64_eq_ok.mpr (parseInt_repr n.le_toInt (by omega))

theorem parseU16_repr (n : UInt16) : parseU16 (n.toNat : ℤ).repr.toList = .ok n := by
  have := n.toNat_lt
  unfold parseU16
  rw [parseInt_repr (by omega) (by omega)]
  simp [Except.map]

/-! Splitting and slicing. -/

/-- `str::split_once` at a character. -/
def splitOnce (sep : Char) : List Char → Option (List Char × List Char)
  | [] => none
  | c :: cs => if c = sep then some ([], cs) else (splitOnce sep cs).map fun p => (c :: p.1, p.2)

theorem splitOnce_append {sep : Char} {pre post : List Char} (h : sep ∉ pre) :
    splitOnce sep (pre ++ sep :: post) = some (pre, post) := by
  induction pre with
  | nil => simp [splitOnce]
  | cons c cs ih =>
    obtain ⟨hc, hcs⟩ := not_or.mp (mt List.mem_cons.mpr h)
    simp [splitOnce, Ne.symm hc, ih hcs]

/-- Cut a string at a byte offset. Off the end or inside a character there is no cut, and
indexing by such a range panics. -/
def splitAtByte : ℕ → List Char → Option (List Char × List Char)
  | 0, cs => some ([], cs)
  | _ + 1, [] => none
  | n + 1, c :: cs =>
    if c.utf8Size ≤ n + 1 then (splitAtByte (n + 1 - c.utf8Size) cs).map fun p => (c :: p.1, p.2)
    else none

/-- A cut after one-byte characters falls where the character count says. -/
theorem splitAtByte_append {pre post : List Char} (h : ∀ c ∈ pre, c.utf8Size = 1) :
    splitAtByte pre.length (pre ++ post) = some (pre, post) := by
  induction pre with
  | nil => simp [splitAtByte]
  | cons c cs ih =>
    have hc := h c (by simp)
    simp [splitAtByte, hc, ih fun d hd => h d (by simp [hd])]

/-- The bytes of a string are read back. -/
theorem fromUTF8?_toUTF8 (s : String) : String.fromUTF8? s.toUTF8 = some s := by
  simp [String.fromUTF8?, String.fromUTF8, s.isValidUTF8]

end Base
