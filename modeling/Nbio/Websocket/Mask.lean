import Nbio.Go.Binary
import Nbio.Go.Slice

/-!
# Masking of frame payloads

`maskXOR` masks a payload in blocks of 64 bytes, then in words of 8 bytes, then byte by byte, with
the four bytes of the key doubled to a word.  `maskXOR_eq` says that it is the byte-wise masking of
RFC 6455, from which masking twice gives the payload back (`maskXOR_maskXOR`).
-/

namespace Nbio.Websocket

open Nbio.Go List

/-- One word: `v := Uint64(b[:8]); PutUint64(b[:8], v^key64)`. -/
def maskWord (key64 : Nat) (b : Bytes) : Bytes := putLeUint 8 (leUint (b.take 8) ^^^ key64)

/-- The eight words of a block of 64 bytes. -/
def maskBlock (key64 : Nat) (b : Bytes) : Bytes :=
  maskWord key64 b ++ maskWord key64 (b.drop 8) ++ maskWord key64 (b.drop 16) ++
    maskWord key64 (b.drop 24) ++ maskWord key64 (b.drop 32) ++ maskWord key64 (b.drop 40) ++
    maskWord key64 (b.drop 48) ++ maskWord key64 (b.drop 56)

/-- A loop that masks `size` bytes at a time as long as there are so many: what it has masked
and what is left. -/
def maskLoop (size : Nat) (mask : Bytes → Bytes) : Nat → Bytes → Bytes × Bytes
  | 0, b => ([], b)
  | fuel + 1, b =>
    if size ≤ b.length then
      let (masked, rest) := maskLoop size mask fuel (b.drop size)
      (mask b ++ masked, rest)
    else ([], b)

/-- The last loop: byte by byte from index `i` on. -/
def maskBytes (key : Bytes) (i : Nat) : Bytes → Bytes
  | [] => []
  | x :: b => (x ^^^ key.getD (i &&& 3) 0) :: maskBytes key (i + 1) b

def maskXOR (b key : Bytes) : Bytes :=
  let key32 := leUint (key.take 4)
  let key64 := key32 ||| key32 <<< 32
  let (masked64, rest) := maskLoop 64 (maskBlock key64) b.length b
  let (masked8, rest) := maskLoop 8 (maskWord key64) rest.length rest
  masked64 ++ masked8 ++ maskBytes key 0 rest

/-! ## Masking byte by byte -/

section Bytewise

variable {key : Bytes}

@[simp] theorem length_maskBytes (i : Nat) (b : Bytes) : (maskBytes key i b).length = b.length := by
  induction b generalizing i with
  | nil => rfl
  | cons x b ih => rw [maskBytes, length_cons, length_cons, ih]

theorem maskBytes_append (i : Nat) (a b : Bytes) :
    maskBytes key i (a ++ b) = maskBytes key i a ++ maskBytes key (i + a.length) b := by
  induction a generalizing i with
  | nil => rfl
  | cons x a ih =>
    rw [cons_append, maskBytes, maskBytes, ih, cons_append, length_cons,
      Nat.add_right_comm, Nat.add_assoc]

theorem maskBytes_add_four (i n : Nat) (b : Bytes) :
    maskBytes key (i + 4 * n) b = maskBytes key i b := by
  induction b generalizing i with
  | nil => rfl
  | cons x b ih =>
    have hidx : (i + 4 * n) &&& 3 = i &&& 3 := by
      rw [Nat.and_two_pow_sub_one_eq_mod _ 2, Nat.and_two_pow_sub_one_eq_mod _ 2]
      omega
    rw [maskBytes, maskBytes, hidx, Nat.add_right_comm, ih]

theorem maskBytes_maskBytes (i : Nat) (b : Bytes) :
    maskBytes key i (maskBytes key i b) = b := by
  induction b generalizing i with
  | nil => rfl
  | cons x b ih => rw [maskBytes, maskBytes, ih, UInt8.xor_assoc, UInt8.xor_self, UInt8.xor_zero]

theorem maskBytes_eight (hkey : key.length = 4) {b : Bytes} (hb : b.length = 8) :
    maskBytes key 0 b = zipWith (· ^^^ ·) b (key ++ key) := by
  obtain ⟨k₀, k₁, k₂, k₃, rfl⟩ : ∃ k₀ k₁ k₂ k₃, key = [k₀, k₁, k₂, k₃] := by
    match key, hkey with
    | [k₀, k₁, k₂, k₃], _ => exact ⟨k₀, k₁, k₂, k₃, rfl⟩
  match b, hb with
  | [_, _, _, _, _, _, _, _], _ => rfl

end Bytewise

/-! ## Masking word by word -/

section Words

variable {key : Bytes}

theorem key64_eq (hkey : key.length = 4) :
    leUint (key.take 4) ||| leUint (key.take 4) <<< 32 = leUint (key ++ key) := by
  have hlt : leUint key < 2 ^ 32 := by
    have h := leUint_lt key
    rwa [hkey] at h
  rw [take_of_length_le (Nat.le_of_eq hkey), Nat.or_comm,
    ← Nat.shiftLeft_add_eq_or_of_lt hlt, leUint_append, hkey]
  omega

theorem maskWord_eq (hkey : key.length = 4) {b : Bytes} (hb : 8 ≤ b.length) :
    maskWord (leUint (key ++ key)) b = maskBytes key 0 (b.take 8) := by
  have hlen : (b.take 8).length = 8 := by rw [length_take]; omega
  have hkk : (key ++ key).length = 8 := by rw [length_append, hkey]
  have hb8 := putLeUint_leUint (b.take 8)
  have hk8 := putLeUint_leUint (key ++ key)
  rw [hlen] at hb8
  rw [hkk] at hk8
  rw [maskWord, putLeUint_xor, hb8, hk8, maskBytes_eight hkey hlen]

theorem maskBytes_split (n : Nat) (b : Bytes) (h : 4 * n ≤ b.length) :
    maskBytes key 0 b = maskBytes key 0 (b.take (4 * n)) ++ maskBytes key 0 (b.drop (4 * n)) := by
  have hlen : (b.take (4 * n)).length = 4 * n := by rw [length_take]; omega
  have happ : maskBytes key 0 (b.take (4 * n) ++ b.drop (4 * n)) = _ := maskBytes_append 0 _ _
  rw [take_append_drop, hlen, maskBytes_add_four] at happ
  exact happ

theorem maskWord_append (hkey : key.length = 4) (n : Nat) {b : Bytes} (hb : n + 8 ≤ b.length) :
    maskWord (leUint (key ++ key)) b ++ maskBytes key 0 ((b.drop 8).take n) =
      maskBytes key 0 (b.take (n + 8)) := by
  have hlen : 4 * 2 ≤ (b.take (n + 8)).length := by rw [length_take]; omega
  have hsub : n + 8 - 4 * 2 = n := by omega
  rw [maskWord_eq hkey (by omega), maskBytes_split 2 _ hlen, take_take, drop_take,
    Nat.min_eq_left (by omega), hsub]

theorem maskBlock_eq (hkey : key.length = 4) {b : Bytes} (hb : 64 ≤ b.length) :
    maskBlock (leUint (key ++ key)) b = maskBytes key 0 (b.take 64) := by
  have hword : ∀ n m, n + 8 + m ≤ 64 →
      maskWord (leUint (key ++ key)) (b.drop m) ++
        maskBytes key 0 ((b.drop (m + 8)).take n) = maskBytes key 0 ((b.drop m).take (n + 8)) := by
    intro n m hle
    have hlen : n + 8 ≤ (b.drop m).length := by rw [length_drop]; omega
    have h := maskWord_append hkey n hlen
    rwa [drop_drop] at h
  have hlast : maskWord (leUint (key ++ key)) (b.drop 56) =
      maskBytes key 0 ((b.drop 56).take 8) :=
    maskWord_eq hkey (by rw [length_drop]; omega)
  rw [maskBlock]
  simp only [append_assoc]
  rw [hlast, hword 8 48 (by omega), hword 16 40 (by omega), hword 24 32 (by omega),
    hword 32 24 (by omega), hword 40 16 (by omega), hword 48 8 (by omega)]
  exact maskWord_append hkey 56 hb

/-- A loop that masks pieces of a multiple of four bytes, followed by the byte-wise loop, is
the byte-wise loop. -/
theorem maskLoop_eq {mask : Bytes → Bytes} (n fuel : Nat) (b : Bytes)
    (hmask : ∀ b, 4 * n ≤ b.length → mask b = maskBytes key 0 (b.take (4 * n))) :
    (maskLoop (4 * n) mask fuel b).1 ++ maskBytes key 0 (maskLoop (4 * n) mask fuel b).2 =
      maskBytes key 0 b := by
  induction fuel generalizing b with
  | zero => rfl
  | succ fuel ih =>
    unfold maskLoop
    split
    · next hle =>
      rw [append_assoc, ih, hmask b hle, ← maskBytes_split n b hle]
    · rfl

end Words

theorem maskXOR_eq (b : Bytes) {key : Bytes} (hkey : key.length = 4) :
    maskXOR b key = maskBytes key 0 b := by
  unfold maskXOR
  dsimp only
  rw [key64_eq hkey, append_assoc, maskLoop_eq 2 _ _ fun b hb => maskWord_eq hkey hb,
    maskLoop_eq 16 _ _ fun b hb => maskBlock_eq hkey hb]

theorem length_maskXOR (b : Bytes) {key : Bytes} (hkey : key.length = 4) :
    (maskXOR b key).length = b.length := by
  rw [maskXOR_eq b hkey, length_maskBytes]

theorem maskXOR_maskXOR (b : Bytes) {key : Bytes} (hkey : key.length = 4) :
    maskXOR (maskXOR b key) key = b := by
  rw [maskXOR_eq _ hkey, maskXOR_eq _ hkey, maskBytes_maskBytes]

/-! ## In place

`maskXOR` writes to the memory that its slice is part of, and the key is a slice of that memory as
well: both callers take it from the bytes in front of the payload.  The loops are those of above, on
the memory. -/

/-- A `[]byte` of a memory of `size` bytes. -/
structure Region (size : Nat) where
  off : Nat
  len : Nat
  le : off + len ≤ size

namespace Region

variable {size : Nat}

def bytes (r : Region size) (mem : Bytes) : Bytes := (mem.drop r.off).take r.len

/-- No byte is in both. -/
def Apart (b key : Region size) : Prop := key.off + key.len ≤ b.off ∨ b.off + b.len ≤ key.off

theorem length_bytes (r : Region size) {mem : Bytes} (hmem : mem.length = size) :
    (r.bytes mem).length = r.len := by
  have := r.le
  rw [bytes, length_take, length_drop]
  omega

theorem bytes_congr (r : Region size) {mem mem' : Bytes}
    (h : ∀ i, i < r.len → mem[r.off + i]? = mem'[r.off + i]?) : r.bytes mem = r.bytes mem' := by
  refine ext_getElem? fun i => ?_
  rw [bytes, bytes, getElem?_take, getElem?_take, getElem?_drop, getElem?_drop]
  split
  · next hi => exact h i hi
  · rfl

theorem getD_bytes (r : Region size) (mem : Bytes) {i : Nat} (hi : i < r.len) :
    (r.bytes mem).getD i 0 = mem.getD (r.off + i) 0 := by
  rw [bytes, getD_eq_getElem?_getD, getD_eq_getElem?_getD, getElem?_take_of_lt hi, getElem?_drop]

end Region

/-- `maskWord` on the bytes from `off` on. -/
def maskWordAt (key64 : Nat) (mem : Bytes) (off : Nat) : Bytes :=
  Slice.overwrite mem off (maskWord key64 (mem.drop off))

/-- The words `b[0:8]`, `b[8:16]`, …, `b[56:64]`. -/
def maskBlockAt (key64 : Nat) (mem : Bytes) (off : Nat) : Bytes :=
  (range 8).foldl (fun mem i => maskWordAt key64 mem (off + 8 * i)) mem

/-- A loop that masks `size` bytes at a time as long as there are so many: the memory, and the slice
that is left. -/
def maskLoopAt (size : Nat) (mask : Bytes → Nat → Bytes) :
    Nat → Bytes → Nat → Nat → Bytes × Nat × Nat
  | 0, mem, off, len => (mem, off, len)
  | fuel + 1, mem, off, len =>
    if size ≤ len then maskLoopAt size mask fuel (mask mem off) (off + size) (len - size)
    else (mem, off, len)

/-- `b[i] ^= key[i & 3]`. -/
def maskByteAt (keyOff off : Nat) (mem : Bytes) (i : Nat) : Bytes :=
  mem.set (off + i) (mem.getD (off + i) 0 ^^^ mem.getD (keyOff + (i &&& 3)) 0)

def maskXORAt {size : Nat} (mem : Bytes) (b key : Region size) : Bytes :=
  let key32 := leUint ((key.bytes mem).take 4)
  let key64 := key32 ||| key32 <<< 32
  let (mem, off, len) := maskLoopAt 64 (maskBlockAt key64) b.len mem b.off b.len
  let (mem, off, len) := maskLoopAt 8 (maskWordAt key64) len mem off len
  (range len).foldl (maskByteAt key.off off) mem

/-- The memory with `n` bytes from `off` on masked, each by itself. -/
def maskedFrom (key : Bytes) (off n : Nat) (mem : Bytes) : Bytes :=
  mem.mapIdx fun j x => if off ≤ j ∧ j < off + n then x ^^^ key.getD ((j - off) % 4) 0 else x

section Memory

variable {key mem : Bytes} {off n : Nat}

@[simp] theorem length_maskedFrom : (maskedFrom key off n mem).length = mem.length :=
  length_mapIdx

theorem getElem?_maskedFrom (j : Nat) : (maskedFrom key off n mem)[j]? =
    mem[j]?.map fun x => if off ≤ j ∧ j < off + n then x ^^^ key.getD ((j - off) % 4) 0 else x := by
  rw [maskedFrom, getElem?_mapIdx]

theorem getElem?_maskedFrom_of_not {j : Nat} (h : ¬ (off ≤ j ∧ j < off + n)) :
    (maskedFrom key off n mem)[j]? = mem[j]? := by
  rw [getElem?_maskedFrom]
  simp only [if_neg h, Option.map_id']

theorem getElem?_maskedFrom_of {j : Nat} (h : off ≤ j ∧ j < off + n) :
    (maskedFrom key off n mem)[j]? = mem[j]?.map (· ^^^ key.getD ((j - off) % 4) 0) := by
  rw [getElem?_maskedFrom]
  simp only [if_pos h]

theorem getElem?_maskBytes (i j : Nat) (b : Bytes) :
    (maskBytes key i b)[j]? = b[j]?.map (· ^^^ key.getD ((i + j) % 4) 0) := by
  induction b generalizing i j with
  | nil => rfl
  | cons x b ih =>
    cases j with
    | zero =>
      have hidx : i &&& 3 = (i + 0) % 4 := Nat.and_two_pow_sub_one_eq_mod i 2
      rw [maskBytes, hidx]
      rfl
    | succ j =>
      rw [maskBytes, getElem?_cons_succ, getElem?_cons_succ, ih, Nat.add_right_comm i 1 j,
        Nat.add_assoc]

theorem maskWordAt_maskedFrom (hkey : key.length = 4) (hn : n % 4 = 0)
    (hle : off + n + 8 ≤ mem.length) :
    maskWordAt (leUint (key ++ key)) (maskedFrom key off n mem) (off + n) =
      maskedFrom key off (n + 8) mem := by
  have hword : 8 ≤ ((maskedFrom key off n mem).drop (off + n)).length := by
    rw [length_drop, length_maskedFrom]
    omega
  have hlen :
      (maskBytes key 0 (((maskedFrom key off n mem).drop (off + n)).take 8)).length = 8 := by
    rw [length_maskBytes, length_take, Nat.min_eq_left hword]
  rw [maskWordAt, maskWord_eq hkey hword]
  refine ext_getElem? fun j => ?_
  rw [Slice.getElem?_overwrite (by rw [hlen, length_maskedFrom]; exact hle)]
  split
  · next hj =>
    obtain ⟨i, rfl⟩ := Nat.exists_eq_add_of_le hj.1
    have hi : i < 8 := by omega
    rw [Nat.add_sub_cancel_left, getElem?_maskBytes, getElem?_take_of_lt hi, getElem?_drop,
      getElem?_maskedFrom_of_not (by omega), getElem?_maskedFrom_of (by omega)]
    have hidx : (off + n + i - off) % 4 = (0 + i) % 4 := by omega
    rw [hidx]
  · next hj =>
    rw [getElem?_maskedFrom, getElem?_maskedFrom]
    congr 1
    funext x
    refine if_congr ?_ rfl rfl
    omega

theorem maskBlockAt_maskedFrom (hkey : key.length = 4) (hn : n % 4 = 0)
    (hle : off + n + 64 ≤ mem.length) :
    maskBlockAt (leUint (key ++ key)) (maskedFrom key off n mem) (off + n) =
      maskedFrom key off (n + 64) mem := by
  have hwords : ∀ k, k ≤ 8 →
      (range k).foldl (fun mem i => maskWordAt (leUint (key ++ key)) mem (off + n + 8 * i))
        (maskedFrom key off n mem) = maskedFrom key off (n + 8 * k) mem := by
    intro k
    induction k with
    | zero => exact fun _ => rfl
    | succ k ih =>
      intro hk
      rw [range_succ, foldl_append, ih (by omega), foldl_cons, Nat.add_assoc off n]
      exact maskWordAt_maskedFrom hkey (by omega) (by omega)
  exact hwords 8 (Nat.le_refl _)

theorem maskLoopAt_maskedFrom {mask : Bytes → Nat → Bytes} {size : Nat} (hpos : 0 < size)
    (hsize : size % 8 = 0)
    (hmask : ∀ n, n % 8 = 0 → off + n + size ≤ mem.length →
      mask (maskedFrom key off n mem) (off + n) = maskedFrom key off (n + size) mem)
    {fuel len : Nat} (hfuel : len ≤ fuel) (hn : n % 8 = 0) (hle : off + n + len ≤ mem.length) :
    ∃ m, maskLoopAt size mask fuel (maskedFrom key off n mem) (off + n) len =
      (maskedFrom key off (n + m) mem, off + (n + m), len - m) ∧
        m % 8 = 0 ∧ m ≤ len ∧ len - m < size := by
  induction fuel generalizing n len with
  | zero => exact ⟨0, rfl, rfl, Nat.zero_le _, by omega⟩
  | succ fuel ih =>
    unfold maskLoopAt
    split
    · next hle' =>
      obtain ⟨m, heq, hm, hmle, hlt⟩ := @ih (n + size) (len - size) (by omega) (by omega)
        (by omega)
      refine ⟨size + m, ?_, by omega, by omega, by omega⟩
      rw [hmask n hn (by omega), Nat.add_assoc off n, heq, Nat.add_assoc n, Nat.sub_sub]
    · exact ⟨0, rfl, rfl, Nat.zero_le _, by omega⟩

theorem foldl_maskByteAt_frame (keyOff : Nat) (r : Nat) {j : Nat} (hj : j < off ∨ off + r ≤ j) :
    ((range r).foldl (maskByteAt keyOff off) mem)[j]? = mem[j]? := by
  induction r with
  | zero => rfl
  | succ r ih =>
    rw [range_succ, foldl_append]
    exact (getElem?_set_ne (by omega)).trans (ih (by omega))

theorem foldl_maskByteAt {size : Nat} {k : Region size} (hmem : mem.length = size) (hk : k.len = 4)
    (hn : n % 8 = 0) (r : Nat) (hle : off + n + r ≤ mem.length)
    (hapart : k.off + 4 ≤ off ∨ off + n + r ≤ k.off) :
    (range r).foldl (maskByteAt k.off (off + n)) (maskedFrom (k.bytes mem) off n mem) =
      maskedFrom (k.bytes mem) off (n + r) mem := by
  induction r with
  | zero => rfl
  | succ r ih =>
    rw [range_succ, foldl_append, ih (by omega) (by omega)]
    have hidx : r &&& 3 = r % 4 := Nat.and_two_pow_sub_one_eq_mod r 2
    have hkey : (maskedFrom (k.bytes mem) off (n + r) mem).getD (k.off + r % 4) 0 =
        (k.bytes mem).getD (r % 4) 0 := by
      rw [k.getD_bytes mem (by omega), getD_eq_getElem?_getD,
        getElem?_maskedFrom_of_not (by omega), ← getD_eq_getElem?_getD]
    rw [foldl_cons, foldl_nil, maskByteAt, hidx, hkey]
    refine ext_getElem? fun j => ?_
    rw [getElem?_set, length_maskedFrom, getElem?_maskedFrom (n := n + (r + 1))]
    split
    · next hj =>
      subst hj
      rw [if_pos (by omega), getD_eq_getElem?_getD, getElem?_maskedFrom_of_not (by omega),
        getElem?_eq_getElem (by omega), Option.map_some, if_pos (by omega)]
      have hoff : (off + n + r - off) % 4 = r % 4 := by omega
      rw [hoff]
      rfl
    · next hj =>
      rw [getElem?_maskedFrom]
      congr 1
      funext x
      refine if_congr ?_ rfl rfl
      omega

theorem maskedFrom_maskedFrom : maskedFrom key off n (maskedFrom key off n mem) = mem := by
  refine ext_getElem? fun j => ?_
  rw [getElem?_maskedFrom, getElem?_maskedFrom, Option.map_map]
  cases mem[j]? with
  | none => rfl
  | some x =>
    rw [Option.map_some, Function.comp_apply]
    split
    · rw [UInt8.xor_assoc, UInt8.xor_self, UInt8.xor_zero]
    · rfl

end Memory

section InPlace

variable {size : Nat} {mem : Bytes} {b key : Region size}

theorem maskXORAt_words (hmem : mem.length = size) (hkey : key.len = 4) :
    ∃ m r, maskXORAt mem b key = (range r).foldl (maskByteAt key.off (b.off + m))
        (maskedFrom (key.bytes mem) b.off m mem) ∧ m % 8 = 0 ∧ m + r = b.len ∧ r < 8 := by
  have hb := b.le
  have hlen : (key.bytes mem).length = 4 := (key.length_bytes hmem).trans hkey
  have hstart : maskedFrom (key.bytes mem) b.off 0 mem = mem :=
    ext_getElem? fun j => getElem?_maskedFrom_of_not (by omega)
  have hblock : ∀ n, n % 8 = 0 → b.off + n + 64 ≤ mem.length → _ = _ :=
    fun n hn hle => maskBlockAt_maskedFrom hlen (by omega) hle
  have hword : ∀ n, n % 8 = 0 → b.off + n + 8 ≤ mem.length → _ = _ :=
    fun n hn hle => maskWordAt_maskedFrom hlen (by omega) hle
  obtain ⟨m, heq, hm, hmle, -⟩ := maskLoopAt_maskedFrom (n := 0) (by decide) rfl hblock
    (Nat.le_refl b.len) rfl (by omega)
  obtain ⟨m', heq', hm', hmle', hlt⟩ := maskLoopAt_maskedFrom (n := 0 + m) (by decide) rfl hword
    (Nat.le_refl (b.len - m)) (by omega) (by omega)
  refine ⟨0 + m + m', b.len - m - m', ?_, by omega, by omega, by omega⟩
  rw [hstart, Nat.add_zero] at heq
  rw [maskXORAt, key64_eq hlen]
  rw [heq]
  dsimp only
  rw [heq']

/-- With a key that is not part of it, the slice is masked byte by byte. -/
theorem maskXORAt_eq (hmem : mem.length = size) (hkey : key.len = 4) (hapart : b.Apart key) :
    maskXORAt mem b key = maskedFrom (key.bytes mem) b.off b.len mem := by
  obtain ⟨m, r, heq, hm, hsum, -⟩ := maskXORAt_words hmem hkey
  have hb := b.le
  unfold Region.Apart at hapart
  rw [heq, foldl_maskByteAt hmem hkey hm r (by omega) (by omega), hsum]

/-- What is done to a frame in a buffer: its payload is masked, its head and its key stay. -/
theorem maskXORAt_frame (head k data : Bytes) (hmem : (head ++ k ++ data).length = size)
    (hk : k.length = 4) (hkey : key.off = head.length ∧ key.len = 4)
    (hb : b.off = head.length + 4 ∧ b.len = data.length) :
    maskXORAt (head ++ k ++ data) b key = head ++ k ++ maskXOR data k := by
  have hbytes : key.bytes (head ++ k ++ data) = k := by
    rw [Region.bytes, hkey.1, hkey.2, append_assoc, drop_left, take_left' hk]
  have hhead : (head ++ k).length = b.off := by rw [length_append, hk, hb.1]
  rw [maskXORAt_eq hmem hkey.2 (.inl (by omega)), hbytes, maskXOR_eq data hk]
  refine ext_getElem? fun j => ?_
  rcases Nat.lt_or_ge j b.off with hj | hj
  · rw [getElem?_maskedFrom_of_not (by omega)]
    rw [← hhead] at hj
    rw [getElem?_append_left hj, getElem?_append_left hj]
  · rw [getElem?_maskedFrom, getElem?_append_right (by omega),
      getElem?_append_right (by omega), hhead, getElem?_maskBytes, Nat.zero_add]
    cases hx : data[j - b.off]? with
    | none => rfl
    | some x =>
      obtain ⟨hlt, -⟩ := List.getElem?_eq_some_iff.1 hx
      rw [Option.map_some, Option.map_some, if_pos (by omega)]

/-- Whatever slices are given, no byte outside of `b` changes, and every byte of its words of eight
is masked with the byte of the key that its index has modulo four; so is every byte, and masking
again gives the memory back, if the key is not itself part of what is masked. -/
theorem maskXOR_bytewise (mem : Bytes) (hmem : mem.length = size) (b key : Region size)
    (hkey : key.len = 4) :
    (∀ j, j < b.off ∨ b.off + b.len ≤ j → (maskXORAt mem b key)[j]? = mem[j]?) ∧
    (∀ i, i < b.len → b.Apart key ∨ i < b.len - b.len % 8 →
      (maskXORAt mem b key).getD (b.off + i) 0 =
        mem.getD (b.off + i) 0 ^^^ mem.getD (key.off + i % 4) 0) ∧
    (b.Apart key → maskXORAt (maskXORAt mem b key) b key = mem) := by
  obtain ⟨m, r, heq, hm, hsum, hr⟩ := maskXORAt_words hmem hkey
  have hb := b.le
  have hbyte : ∀ n i, i < n → b.off + n ≤ mem.length →
      (maskedFrom (key.bytes mem) b.off n mem).getD (b.off + i) 0 =
        mem.getD (b.off + i) 0 ^^^ mem.getD (key.off + i % 4) 0 := by
    intro n i hi hn
    rw [← key.getD_bytes mem (by omega), getD_eq_getElem?_getD, getD_eq_getElem?_getD,
      getElem?_maskedFrom_of (by omega), getElem?_eq_getElem (by omega), Nat.add_sub_cancel_left]
    rfl
  refine ⟨fun j hj => ?_, fun i hi hcase => ?_, fun hapart => ?_⟩
  · rw [heq, foldl_maskByteAt_frame _ _ (by omega), getElem?_maskedFrom_of_not (by omega)]
  · rcases hcase with hapart | hlt
    · rw [maskXORAt_eq hmem hkey hapart, hbyte _ i hi (by omega)]
    · rw [heq, getD_eq_getElem?_getD, foldl_maskByteAt_frame _ _ (by omega),
        ← getD_eq_getElem?_getD, hbyte _ i (by omega) (by omega)]
  · have hkeep : key.bytes (maskedFrom (key.bytes mem) b.off b.len mem) = key.bytes mem := by
      refine key.bytes_congr fun i hi => getElem?_maskedFrom_of_not ?_
      unfold Region.Apart at hapart
      omega
    rw [maskXORAt_eq hmem hkey hapart,
      maskXORAt_eq (length_maskedFrom.trans hmem) hkey hapart, hkeep, maskedFrom_maskedFrom]

/-- A frame with the payload `Hello`. -/
theorem maskXOR_bytewise_hello :
    let mem : Bytes := [0x81, 0x85, 0x37, 0xfa, 0x21, 0x3d] ++ ascii "Hello"
    let b : Region 11 := ⟨6, 5, by decide⟩
    let key : Region 11 := ⟨2, 4, by decide⟩
    maskXORAt mem b key = mem.take 6 ++ [0x7f, 0x9f, 0x4d, 0x51, 0x58] ∧
      maskXORAt (maskXORAt mem b key) b key = mem := by
  intro mem b key
  exact ⟨by decide, (maskXOR_bytewise mem rfl b key rfl).2.2 (.inl (by decide))⟩

-- a key that is part of the slice is masked with it, before the last byte is
example : maskXORAt [1, 2, 3, 4, 5] (⟨0, 5, by decide⟩ : Region 5) ⟨0, 4, by decide⟩ =
    [0, 0, 0, 0, 5] := by decide

end InPlace

end Nbio.Websocket
