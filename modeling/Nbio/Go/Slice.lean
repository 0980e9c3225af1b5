import Nbio.Go.Text

/-!
# Byte slices with their capacity

A `[]byte` as far as its length and its capacity matter: the array from where the slice begins, of
which the slice shows the first `len` bytes.  A slice expression that goes beyond the capacity is a
panic; `append` is only written out where the capacity is enough.
-/

namespace Nbio.Go

open List

/-- A `[]byte`: its array from where the slice begins, and its length. -/
structure Slice where
  array : Bytes
  len : Nat
  len_le : len ≤ array.length
deriving DecidableEq, Repr

namespace Slice

variable {b : Slice} {src more : Bytes}

def cap (b : Slice) : Nat := b.array.length

def bytes (b : Slice) : Bytes := b.array.take b.len

/-- `make([]byte, size)`. -/
def make (size : Nat) : Slice :=
  { array := replicate size 0, len := size, len_le := by rw [length_replicate] }

/-- `b[:n]`; `none` is the bounds panic. -/
def reslice (b : Slice) (n : Int) : Option Slice :=
  if h : 0 ≤ n ∧ n.toNat ≤ b.cap then some { array := b.array, len := n.toNat, len_le := h.2 }
  else none

/-- `b[:n]`, for `n` within the capacity. -/
def cut (b : Slice) (n : Nat) : Slice where
  array := b.array
  len := min n b.cap
  len_le := Nat.min_le_right _ _

/-- The array with `src` written over it from `off` on. -/
def overwrite (array : Bytes) (off : Nat) (src : Bytes) : Bytes :=
  array.take off ++ src ++ array.drop (off + src.length)

/-- `copy(array[off:], src)`. -/
def copyOver (array : Bytes) (off : Nat) (src : Bytes) : Bytes :=
  overwrite array off (src.take (array.length - off))

/-- `copy(b[off:], src)`. -/
def copyAt (b : Slice) (off : Nat) (src : Bytes) : Slice where
  array := overwrite b.array off (src.take (b.len - off))
  len := b.len
  len_le := by
    have h := b.len_le
    simp only [overwrite, length_append, length_take, length_drop]
    omega

/-- `append(b, more...)` where the capacity is enough. -/
def extend (b : Slice) (more : Bytes) : Slice where
  array := overwrite b.array b.len more
  len := b.len + more.length
  len_le := by
    have hlen := b.len_le
    simp only [overwrite, length_append, length_take, length_drop]
    omega

theorem length_bytes (b : Slice) : b.bytes.length = b.len := by
  rw [bytes, length_take, Nat.min_eq_left b.len_le]

@[simp] theorem cap_make (size : Nat) : (make size).cap = size := length_replicate

theorem reslice_of_le {n : Nat} (h : n ≤ b.cap) :
    b.reslice n = some { array := b.array, len := n, len_le := h } :=
  dif_pos ⟨Int.natCast_nonneg n, h⟩

theorem bytes_cut (b : Slice) {n : Nat} (h : n ≤ b.len) : (b.cut n).bytes = b.bytes.take n := by
  have hle := b.len_le
  simp only [cut, bytes, cap, take_take]
  congr 1
  omega

theorem cut_cap (h : b.len = b.cap) : b.cut b.cap = b := by
  cases b
  simp only [cap] at h
  simp [cut, cap, h]

theorem length_copyOver {array : Bytes} {off : Nat} (hoff : off ≤ array.length) :
    (copyOver array off src).length = array.length := by
  simp only [copyOver, overwrite, length_append, length_take, length_drop]
  omega

theorem copyOver_eq {array : Bytes} {off : Nat} (h : off + src.length ≤ array.length) :
    copyOver array off src = array.take off ++ src ++ array.drop (off + src.length) := by
  rw [copyOver, take_of_length_le (by omega), overwrite]

theorem take_overwrite {array : Bytes} {off : Nat} (hoff : off ≤ array.length) (src : Bytes) :
    (overwrite array off src).take (off + src.length) = array.take off ++ src := by
  exact take_left' (by rw [length_append, length_take, Nat.min_eq_left hoff])

theorem getElem?_overwrite {array : Bytes} {off : Nat} (h : off + src.length ≤ array.length)
    (j : Nat) : (overwrite array off src)[j]? =
      if off ≤ j ∧ j < off + src.length then src[j - off]? else array[j]? := by
  have hoff : (array.take off).length = off := by
    rw [length_take]
    omega
  rw [overwrite, append_assoc]
  rcases Nat.lt_or_ge j off with hj | hj
  · rw [if_neg (by omega), getElem?_append_left (by omega), getElem?_take_of_lt hj]
  rw [getElem?_append_right (by omega), hoff]
  rcases Nat.lt_or_ge j (off + src.length) with hj' | hj'
  · rw [if_pos ⟨hj, hj'⟩, getElem?_append_left (by omega)]
  · rw [if_neg (by omega), getElem?_append_right (by omega), getElem?_drop]
    congr 1
    omega

@[simp] theorem bytes_extend (b : Slice) (more : Bytes) :
    (b.extend more).bytes = b.bytes ++ more :=
  take_overwrite b.len_le more

@[simp] theorem len_copyAt (b : Slice) (off : Nat) (src : Bytes) : (b.copyAt off src).len = b.len :=
  rfl

theorem cap_copyAt (b : Slice) {off : Nat} (hoff : off ≤ b.len) (src : Bytes) :
    (b.copyAt off src).cap = b.cap := by
  have hle := b.len_le
  simp only [copyAt, cap, overwrite, length_append, length_take, length_drop]
  omega

theorem take_bytes_copyAt (off : Nat) (src : Bytes) (h : off + src.length ≤ b.len) :
    (b.copyAt off src).bytes.take (off + src.length) = b.bytes.take off ++ src := by
  have hlen := b.len_le
  have hsrc : src.take (b.len - off) = src := take_of_length_le (by omega)
  have hoff : b.array.take off = (b.array.take b.len).take off := by
    rw [take_take, Nat.min_eq_left (by omega)]
  rw [bytes, take_take, len_copyAt, Nat.min_eq_left h]
  simp only [copyAt, hsrc]
  rw [take_overwrite (by omega), bytes, hoff]

theorem bytes_copyAt_cut (b : Slice) {data : Bytes} (hle : data.length ≤ b.len) :
    ((b.copyAt 0 data).cut data.length).bytes = data := by
  have htake := take_bytes_copyAt (b := b) 0 data (by omega)
  rw [Nat.zero_add] at htake
  rw [bytes_cut _ (by exact hle), htake, take_zero, nil_append]

theorem bytes_copyAt_copyAt (h : b.len = src.length + more.length) :
    ((b.copyAt 0 src).copyAt src.length more).bytes = src ++ more := by
  have hfirst := take_bytes_copyAt (b := b) 0 src (by omega)
  have hsecond := take_bytes_copyAt (b := b.copyAt 0 src) src.length more
    (by rw [len_copyAt]; omega)
  rw [Nat.zero_add] at hfirst
  rw [hfirst, take_of_length_le (by rw [length_bytes, len_copyAt, len_copyAt]; omega)] at hsecond
  exact hsecond

end Slice

end Nbio.Go
