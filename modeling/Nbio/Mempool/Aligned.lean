import Nbio.Go.Slice
import Nbio.Lib.Machine

/-!
# The aligned allocator

`AlignedAllocator` keeps freed buffers in one `sync.Pool` for each power of two from 32 bytes to 32
kilobytes.  `Malloc` takes a buffer from the pool of the smallest class that is large enough and
cuts it to the size asked for, so that it relies on the capacities in the pool; `Free` puts a buffer
into the pool that `Malloc` would use for a buffer of its capacity.

`sync.Pool` may drop what was put there at any time, and `Get` returns any of the buffers that are
left or a new one.  The memory of a buffer in a pool may have been written to by those who still
have it, so that its contents are whatever they are when `Get` returns it.
-/

namespace Nbio.Mempool

open Nbio.Go Nbio.Lib List

def minAlignedBufferSizeBits : Nat := 5
def maxAlignedBufferSizeBits : Nat := 15
def minAlignedBufferSize : Nat := 1 <<< minAlignedBufferSizeBits
def minAlignedBufferSizeMask : Nat := minAlignedBufferSize - 1
def maxAlignedBufferSize : Nat := 1 <<< maxAlignedBufferSizeBits
def alignedPoolBucketNum : Nat := maxAlignedBufferSizeBits - minAlignedBufferSizeBits + 1

/-- The size of the buffers that `alignedPools[i]` makes. -/
def poolSizes (i : Nat) : Nat := 1 <<< (i + minAlignedBufferSizeBits)

/-- `getPoolBySize` of `init`: the first class that is large enough. -/
def getPoolBySize (size : Nat) : Nat :=
  ((range alignedPoolBucketNum).find? fun i => size ≤ poolSizes i).getD 0xFF

/-- The table `alignedIndexes`, which is only read up to `maxAlignedBufferSize`. -/
def alignedIndexes (size : Nat) : Nat := getPoolBySize size

abbrev Pools := Nat → List Slice

/-- What `Get` finds: one of the buffers in the pool, if any, and what its memory holds. -/
structure Get where
  pick : Option Nat
  memory : Nat → UInt8

def holding (b : Slice) (memory : Nat → UInt8) : Slice where
  array := (range b.cap).map memory
  len := b.len
  len_le := by
    rw [length_map, length_range]
    exact b.len_le

def get (s : Pools) (i : Nat) (g : Get) : Slice × Pools :=
  match g.pick.bind fun n => ((s i)[n]?).map fun b => (n, b) with
  | some (n, b) => (holding b g.memory, Function.update s i ((s i).eraseIdx n))
  | none => (.make (poolSizes i), s)

inductive Outcome where
  /-- A slice expression is out of range. -/
  | panics
  | returnsNil
  | returns (b : Slice)
deriving DecidableEq, Repr

/-! ## The methods -/

def Malloc (s : Pools) (g : Get) (size : Int) : Outcome × Pools :=
  if size < 0 then (.returnsNil, s)
  else if size ≤ maxAlignedBufferSize then
    let (b, s) := get s (alignedIndexes size.toNat) g
    match b.reslice size with
    | some ret => (.returns ret, s)
    | none => (.panics, s)
  else (.returns (.make size.toNat), s)

/-- Whether `Free` puts a buffer into a pool. -/
def pooled (b : Slice) : Bool :=
  !(b.cap &&& minAlignedBufferSizeMask != 0 || maxAlignedBufferSize < b.cap)

def Free (s : Pools) (b : Slice) : Pools :=
  if pooled b then
    let idx := alignedIndexes b.cap
    Function.update s idx (s idx ++ [b])
  else s

def Realloc (s : Pools) (g : Get) (b : Slice) (size : Int) : Outcome × Pools :=
  if size ≤ b.cap then
    match b.reslice size with
    | some ret => (.returns ret, s)
    | none => (.panics, s)
  else
    match Malloc s g size with
    | (.returns new, s) => (.returns (new.copyAt 0 b.bytes), Free s b)
    | (out, s) => (out, s)

def Append (s : Pools) (g : Get) (b : Slice) (more : Bytes) : Outcome × Pools :=
  if more.length ≤ b.cap - b.len then (.returns (b.extend more), s)
  else
    match Malloc s g (b.len + more.length : Nat) with
    | (.returns new, s) => (.returns ((new.copyAt 0 b.bytes).copyAt b.len more), Free s b)
    | (out, s) => (out, s)

def AppendString (s : Pools) (g : Get) (b : Slice) (more : Bytes) : Outcome × Pools :=
  Append s g b more

inductive Call where
  | malloc (size : Int)
  | realloc (b : Slice) (size : Int)
  | append (b : Slice) (more : Bytes)
  | appendString (b : Slice) (more : Bytes)
  | free (b : Slice)
  /-- The `n`-th buffer of pool `i` is dropped. -/
  | drop (i n : Nat)

def Call.exec (s : Pools) (g : Get) : Call → Pools
  | .malloc size => (Malloc s g size).2
  | .realloc b size => (Realloc s g b size).2
  | .append b more => (Append s g b more).2
  | .appendString b more => (AppendString s g b more).2
  | .free b => Free s b
  | .drop i n => Function.update s i ((s i).eraseIdx n)

def init : Pools := fun _ => []

def step (s : Pools) (e : Call × Get) : Option Pools := some (e.1.exec s e.2)

/-! ## Classes -/

/-- What `Malloc` relies on: the buffers of a pool are as large as its class. -/
def Classed (s : Pools) : Prop := ∀ i, ∀ b ∈ s i, poolSizes i ≤ b.cap

/-- The capacity of a buffer is the size of a class. -/
def isClassSize (size : Nat) : Bool := (range alignedPoolBucketNum).any fun i => size == poolSizes i

def Call.freed : Call → List Slice
  | .free b => [b]
  | .realloc b size => if size ≤ b.cap then [] else [b]
  | .append b more => if more.length ≤ b.cap - b.len then [] else [b]
  | .appendString b more => if more.length ≤ b.cap - b.len then [] else [b]
  | .malloc _ | .drop _ _ => []

/-- The buffers that a call gives to `Free` are turned away or have the size of a class. -/
def Call.fits (c : Call) : Bool := c.freed.all fun b => !pooled b || isClassSize b.cap

theorem poolSizes_eq (i : Nat) : poolSizes i = 2 ^ (i + 5) := Nat.one_shiftLeft _

theorem poolSizes_le {i j : Nat} (h : i ≤ j) : poolSizes i ≤ poolSizes j := by
  rw [poolSizes_eq, poolSizes_eq]
  exact Nat.pow_le_pow_right Nat.two_pos (by omega)

theorem alignedIndexes_spec {size : Nat} (h : size ≤ maxAlignedBufferSize) :
    alignedIndexes size < alignedPoolBucketNum ∧ size ≤ poolSizes (alignedIndexes size) ∧
      ∀ i, size ≤ poolSizes i → alignedIndexes size ≤ i := by
  have hlast : size ≤ poolSizes 10 := h
  unfold alignedIndexes getPoolBySize
  cases hfind : (range alignedPoolBucketNum).find? fun i => decide (size ≤ poolSizes i) with
  | none =>
    have hnone := List.find?_eq_none.1 hfind 10 (by decide)
    exact absurd (decide_eq_true hlast) hnone
  | some i =>
    obtain ⟨hi, hmem, hfirst⟩ := List.find?_range_eq_some.1 hfind
    refine ⟨mem_range.1 hmem, of_decide_eq_true hi, fun j hj => Nat.le_of_not_lt fun hlt => ?_⟩
    have hnot := hfirst j hlt
    rw [decide_eq_true hj] at hnot
    cases hnot

theorem pooled_le {b : Slice} (h : pooled b = true) : b.cap ≤ maxAlignedBufferSize := by
  simp only [pooled, Bool.not_eq_true', Bool.or_eq_false_iff, decide_eq_false_iff_not] at h
  exact Nat.le_of_not_lt h.2

theorem isClassSize_iff {size : Nat} (h : size ≤ maxAlignedBufferSize) :
    isClassSize size = true ↔ poolSizes (alignedIndexes size) ≤ size := by
  obtain ⟨hlt, hle, hfirst⟩ := alignedIndexes_spec h
  simp only [isClassSize, any_eq_true, mem_range, beq_iff_eq]
  constructor
  · rintro ⟨i, -, heq⟩
    calc poolSizes (alignedIndexes size) ≤ poolSizes i := poolSizes_le (hfirst i heq.le)
      _ = size := heq.symm
  · intro hge
    exact ⟨_, hlt, Nat.le_antisymm hle hge⟩

/-! ## What the methods do to the pools -/

variable {s : Pools} {g : Get}

section

variable (h : Classed s)

include h

theorem Classed.update {i : Nat} {l : List Slice} (hl : ∀ b ∈ l, poolSizes i ≤ b.cap) :
    Classed (Function.update s i l) := by
  intro j b hb
  by_cases hj : j = i
  · subst hj
    rw [Function.update_self] at hb
    exact hl b hb
  · rw [Function.update_of_ne hj] at hb
    exact h j b hb

theorem Classed.eraseIdx (i n : Nat) :
    Classed (Function.update s i ((s i).eraseIdx n)) :=
  h.update fun b hb => h i b (mem_of_mem_eraseIdx hb)

theorem classed_free_iff (b : Slice) :
    Classed (Free s b) ↔ (!pooled b || isClassSize b.cap) = true := by
  unfold Free
  cases hp : pooled b with
  | false => exact iff_of_true h rfl
  | true =>
    have hle := pooled_le hp
    simp only [Bool.not_true, Bool.false_or]
    rw [isClassSize_iff hle]
    constructor
    · intro hclassed
      have hmem : b ∈ Function.update s (alignedIndexes b.cap) (s (alignedIndexes b.cap) ++ [b])
          (alignedIndexes b.cap) := by
        rw [Function.update_self]
        exact mem_append_right _ mem_cons_self
      exact hclassed _ b hmem
    · intro hge
      refine h.update fun b' hb' => ?_
      rcases mem_append.1 hb' with hb' | hb'
      · exact h _ b' hb'
      · rw [mem_singleton.1 hb']
        exact hge

theorem get_spec (i : Nat) (g : Get) :
    poolSizes i ≤ (get s i g).1.cap ∧ Classed (get s i g).2 := by
  unfold get
  split
  · next n b hpick =>
    obtain ⟨m, -, hm⟩ := Option.bind_eq_some_iff.1 hpick
    obtain ⟨b', hb', heq⟩ := Option.map_eq_some_iff.1 hm
    obtain ⟨rfl, rfl⟩ := Prod.mk.inj heq
    refine ⟨?_, h.eraseIdx i m⟩
    have hcap : (holding b' g.memory).cap = b'.cap := by
      rw [Slice.cap, holding, length_map, length_range]
    rw [hcap]
    exact h i b' (mem_of_getElem? hb')
  · exact ⟨(Slice.cap_make _).ge, h⟩

theorem malloc_spec (g : Get) (size : Nat) :
    ∃ b u, Malloc s g size = (.returns b, u) ∧ b.len = size ∧ Classed u := by
  unfold Malloc
  rw [if_neg (by omega)]
  split
  · next hle =>
    have hsize : size ≤ maxAlignedBufferSize := Int.ofNat_le.1 hle
    obtain ⟨hcap, hclassed⟩ := get_spec h (alignedIndexes size) g
    have hroom := Nat.le_trans (alignedIndexes_spec hsize).2.1 hcap
    simp only [Int.toNat_natCast, Slice.reslice_of_le hroom]
    exact ⟨_, _, rfl, rfl, hclassed⟩
  · exact ⟨_, _, rfl, rfl, h⟩

theorem classed_malloc (g : Get) (size : Int) : Classed (Malloc s g size).2 := by
  cases Int.lt_or_le size 0 with
  | inl hneg =>
    rw [Malloc, if_pos hneg]
    exact h
  | inr hpos =>
    obtain ⟨b, u, heq, -, hu⟩ := malloc_spec h g size.toNat
    rw [Int.toNat_of_nonneg hpos] at heq
    rw [heq]
    exact hu

theorem append_spec (g : Get) (b : Slice) (more : Bytes) :
    (∃ b', (Append s g b more).1 = .returns b' ∧ b'.bytes = b.bytes ++ more) ∧
      (Classed (Append s g b more).2 ↔ (Call.append b more).fits = true) := by
  unfold Append Call.fits Call.freed
  dsimp only
  by_cases hroom : more.length ≤ b.cap - b.len
  · rw [if_pos hroom, if_pos hroom]
    exact ⟨⟨_, rfl, Slice.bytes_extend b more⟩, iff_of_true h rfl⟩
  · rw [if_neg hroom, if_neg hroom]
    obtain ⟨new, u, heq, hlen, hu⟩ := malloc_spec h g (b.len + more.length)
    rw [heq]
    have hb := b.length_bytes
    refine ⟨⟨_, rfl, ?_⟩, ?_⟩
    · rw [← hb] at hlen ⊢
      exact Slice.bytes_copyAt_copyAt hlen
    · rw [classed_free_iff hu, all_cons, all_nil, Bool.and_true]

theorem classed_realloc_iff (g : Get) (b : Slice) (size : Int) :
    Classed (Realloc s g b size).2 ↔ (Call.realloc b size).fits = true := by
  unfold Realloc Call.fits Call.freed
  dsimp only
  by_cases hroom : size ≤ b.cap
  · rw [if_pos hroom, if_pos hroom]
    refine iff_of_true ?_ rfl
    split <;> exact h
  · rw [if_neg hroom, if_neg hroom]
    obtain ⟨new, u, heq, -, hu⟩ := malloc_spec h g size.toNat
    rw [Int.toNat_of_nonneg (by omega)] at heq
    rw [heq]
    rw [classed_free_iff hu, all_cons, all_nil, Bool.and_true]

theorem classed_exec_iff (g : Get) (c : Call) :
    Classed (c.exec s g) ↔ c.fits = true := by
  cases c with
  | malloc size => exact iff_of_true (classed_malloc h g size) rfl
  | realloc b size => exact classed_realloc_iff h g b size
  | append b more => exact (append_spec h g b more).2
  | appendString b more => exact (append_spec h g b more).2
  | free b =>
    rw [Call.fits, Call.freed, all_cons, all_nil, Bool.and_true]
    exact classed_free_iff h b
  | drop i n => exact iff_of_true (h.eraseIdx i n) rfl

end

/-! ## Whole runs -/

/-- What the allocator promises. -/
structure Sound (s : Pools) : Prop where
  classed : ∀ i, ∀ b ∈ s i, 2 ^ (i + 5) ≤ b.cap
  malloc : ∀ g (size : Nat), ∃ b, (Malloc s g size).1 = .returns b ∧ b.len = size
  append : ∀ g b more, ∃ b', (Append s g b more).1 = .returns b' ∧ b'.bytes = b.bytes ++ more
  appendString : ∀ g b more,
    ∃ b', (AppendString s g b more).1 = .returns b' ∧ b'.bytes = b.bytes ++ more

theorem Classed.sound (h : Classed s) : Sound s where
  classed := fun i b hb => poolSizes_eq i ▸ h i b hb
  malloc := by
    intro g size
    obtain ⟨b, u, heq, hlen, -⟩ := malloc_spec h g size
    exact ⟨b, by rw [heq], hlen⟩
  append := fun g b more => (append_spec h g b more).1
  appendString := fun g b more => (append_spec h g b more).1

/-- As long as the buffers given to `Free` fit, the allocator is sound, whatever the pools drop and
return; and the first call that frees another buffer breaks the classes. -/
theorem aligned_pools_sound (s : Pools) (h : Reaches step (fun _ e => e.1.fits = true) init s) :
    Sound s ∧ ∀ (c : Call) (g : Get), (∀ i, ∀ b ∈ c.exec s g i, 2 ^ (i + 5) ≤ b.cap) ↔
      c.fits = true := by
  have hclassed : Classed s := by
    refine h.invariant (fun i b hb => ?_) ?_
    · cases hb
    · intro t e u ht hfits hstep
      cases hstep
      exact (classed_exec_iff ht e.2 e.1).2 hfits
  refine ⟨hclassed.sound, fun c g => ?_⟩
  rw [← classed_exec_iff hclassed g c]
  simp only [Classed, poolSizes_eq]

def first : Get := { pick := some 0, memory := fun _ => 0 }

/-- A foreign buffer of 100 bytes is turned away, one of 64 bytes is kept. -/
def fittingRun : List (Call × Get) :=
  [(.free (.make 100), first), (.free (.make 64), first), (.append (.make 40) [1, 2], first)]

theorem aligned_pools_sound_fitting :
    ∃ s, fittingRun.foldlM (guarded step fun _ e => e.1.fits) init = some s ∧ Sound s ∧
      ∀ (c : Call) (g : Get), (∀ i, ∀ b ∈ c.exec s g i, 2 ^ (i + 5) ≤ b.cap) ↔ c.fits = true :=
  have hrun : ∃ s, fittingRun.foldlM (guarded step fun _ e => e.1.fits) init = some s := ⟨_, rfl⟩
  hrun.imp fun s h => ⟨h, aligned_pools_sound s (Reaches.of_foldlM h)⟩

/-- A buffer without capacity goes to the class of 32 bytes, one of 96 bytes to that of 128; the
next `Malloc` that gets it panics. -/
theorem freed_buffers_break_malloc :
    (∃ s, [((.free (.make 0), first) : Call × Get)].foldlM step init = some s ∧
      (Malloc s first 1).1 = .panics ∧ ∃ b ∈ s 0, b.cap = 0) ∧
    ∃ s, [((.free (.make 96), first) : Call × Get)].foldlM step init = some s ∧
      (Malloc s first 100).1 = .panics ∧ ∃ b ∈ s 2, b.cap = 96 := by
  refine ⟨⟨_, rfl, ?_, .make 0, ?_, rfl⟩, _, rfl, ?_, .make 96, ?_, Slice.cap_make 96⟩
  all_goals decide +kernel

end Nbio.Mempool
