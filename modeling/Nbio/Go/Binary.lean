import Nbio.Go.Text

/-!
# Fixed-width integers as bytes

`encoding/binary`: the little-endian and the big-endian value of a slice, and the bytes of a
value.  The width is the length of the slice.
-/

namespace Nbio.Go

open List

/-- `binary.LittleEndian.Uint16`, `Uint32` and `Uint64`, by the length of the slice. -/
def leUint : Bytes → Nat
  | [] => 0
  | b :: bs => b.toNat + 256 * leUint bs

/-- `binary.LittleEndian.PutUint16`, `PutUint32` and `PutUint64`, by the number of bytes. -/
def putLeUint : Nat → Nat → Bytes
  | 0, _ => []
  | n + 1, v => UInt8.ofNat v :: putLeUint n (v / 256)

/-- `binary.BigEndian.Uint16` and `Uint64`. -/
def beUint (bs : Bytes) : Nat := leUint bs.reverse

/-- `binary.BigEndian.PutUint16` and `PutUint64`. -/
def putBeUint (n v : Nat) : Bytes := (putLeUint n v).reverse

@[simp] theorem length_putLeUint (n v : Nat) : (putLeUint n v).length = n := by
  induction n generalizing v with
  | zero => rfl
  | succ n ih => rw [putLeUint, length_cons, ih]

@[simp] theorem length_putBeUint (n v : Nat) : (putBeUint n v).length = n := by
  rw [putBeUint, length_reverse, length_putLeUint]

theorem leUint_lt (bs : Bytes) : leUint bs < 256 ^ bs.length := by
  induction bs with
  | nil => exact Nat.one_pos
  | cons b bs ih =>
    have hb : b.toNat < 256 := b.toNat_lt
    rw [leUint, length_cons]
    omega

theorem beUint_lt (bs : Bytes) : beUint bs < 256 ^ bs.length := by
  have h := leUint_lt bs.reverse
  rwa [length_reverse] at h

theorem putLeUint_leUint (bs : Bytes) : putLeUint bs.length (leUint bs) = bs := by
  induction bs with
  | nil => rfl
  | cons b bs ih =>
    have hb : b.toNat < 256 := b.toNat_lt
    have hdiv : (b.toNat + 256 * leUint bs) / 256 = leUint bs := by omega
    have hmod : UInt8.ofNat (b.toNat + 256 * leUint bs) = b := by
      apply UInt8.toNat_inj.1
      rw [UInt8.toNat_ofNat']
      omega
    rw [leUint, length_cons, putLeUint, hdiv, ih, hmod]

theorem leUint_putLeUint {n v : Nat} (h : v < 256 ^ n) : leUint (putLeUint n v) = v := by
  induction n generalizing v with
  | zero =>
    rw [Nat.pow_zero, Nat.lt_one_iff] at h
    rw [h]
    rfl
  | succ n ih =>
    have hdiv : v / 256 < 256 ^ n := by
      rw [Nat.div_lt_iff_lt_mul (by decide)]
      exact h
    rw [putLeUint, leUint, ih hdiv, UInt8.toNat_ofNat']
    omega

theorem beUint_putBeUint {n v : Nat} (h : v < 256 ^ n) : beUint (putBeUint n v) = v := by
  rw [beUint, putBeUint, reverse_reverse, leUint_putLeUint h]

theorem leUint_append (as bs : Bytes) :
    leUint (as ++ bs) = leUint as + 256 ^ as.length * leUint bs := by
  induction as with
  | nil => simp [leUint]
  | cons a as ih =>
    rw [cons_append, leUint, ih, leUint, length_cons, Nat.pow_succ, Nat.mul_add,
      Nat.add_assoc, ← Nat.mul_assoc, Nat.mul_comm 256 (256 ^ as.length)]

theorem putLeUint_xor (n v w : Nat) :
    putLeUint n (v ^^^ w) = zipWith (· ^^^ ·) (putLeUint n v) (putLeUint n w) := by
  induction n generalizing v w with
  | zero => rfl
  | succ n ih =>
    have hdiv : (v ^^^ w) / 256 = v / 256 ^^^ w / 256 := Nat.xor_div_two_pow (n := 8)
    rw [putLeUint, putLeUint, putLeUint, zipWith_cons_cons, hdiv, ih, UInt8.ofNat_xor]

end Nbio.Go
