import Mathlib

/-! Numbers as bytes, in the order that a machine or a network keeps them in. -/

namespace Base

/-- The `n` low bytes of a number, the lowest first. -/
def bytesLE : ℕ → ℕ → List UInt8
  | 0, _ => []
  | n + 1, x => UInt8.ofNat x :: bytesLE n (x / 256)

/-- The number that the bytes spell, the lowest first. -/
def ofBytesLE (bs : List UInt8) : ℕ := Nat.ofDigits 256 (bs.map UInt8.toNat)

@[simp] theorem length_bytesLE (n x : ℕ) : (bytesLE n x).length = n := by
  induction n generalizing x with
  | zero => rfl
  | succ n ih => rw [bytesLE, List.length_cons, ih]

theorem ofBytesLE_cons (b : UInt8) (bs : List UInt8) :
    ofBytesLE (b :: bs) = b.toNat + 256 * ofBytesLE bs := by
  simp [ofBytesLE, Nat.ofDigits_cons]

theorem ofBytesLE_lt (bs : List UInt8) : ofBytesLE bs < 256 ^ bs.length := by
  have h := Nat.ofDigits_lt_base_pow_length' (b := 254) (l := bs.map UInt8.toNat) fun x hx => by
    obtain ⟨b, -, rfl⟩ := List.mem_map.mp hx
    exact b.toNat_lt
  rwa [List.length_map] at h

theorem ofBytesLE_bytesLE {n x : ℕ} (h : x < 256 ^ n) : ofBytesLE (bytesLE n x) = x := by
  induction n generalizing x with
  | zero => simp_all [bytesLE, ofBytesLE]
  | succ n ih =>
    rw [bytesLE, ofBytesLE_cons, ih (Nat.div_lt_of_lt_mul (by rwa [← Nat.pow_succ'])),
      UInt8.toNat_ofNat']
    exact Nat.mod_add_div x 256

theorem bytesLE_ofBytesLE (bs : List UInt8) : bytesLE bs.length (ofBytesLE bs) = bs := by
  induction bs with
  | nil => rfl
  | cons b bs ih =>
    have hb := b.toNat_lt
    rw [List.length_cons, bytesLE, ofBytesLE_cons, show (b.toNat + 256 * ofBytesLE bs) / 256 = ofBytesLE bs by
      omega, ih, List.cons.injEq]
    refine ⟨UInt8.toNat_inj.mp ?_, rfl⟩
    rw [UInt8.toNat_ofNat']
    omega

end Base
