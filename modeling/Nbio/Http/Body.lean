import Nbio.Go.Slice
import Nbio.Http.ServerProcessor

/-!
# The body of a message

`BodyReader` keeps the body of a message in buffers of the allocator.  `append` fills the spare
capacity of the last buffer and allocates a new one for what is left over; `Read` copies from the
first buffer and frees it when it has been read to its end.  The first buffer may be partly read
while it is still being filled, as it may be the last one too.

What a reader holds is a queue of bytes (`BodyReader.unread`), whatever the capacities are.
-/

namespace Nbio.Http

open Nbio.Go List

/-- `Engine.MaxHTTPBodySize`, and what `BodyAllocator` does at allocation `n`: the capacity beyond
the size that was asked for, and what the memory holds. -/
structure BodyEngine where
  maxHTTPBodySize : Int
  spare : Nat → Nat
  contents : Nat → Nat → UInt8

/-- A buffer of the allocator, numbered by its allocation. -/
structure BodyBuffer where
  id : Nat
  slice : Slice
deriving DecidableEq, Repr

inductive BodyErr where
  | eof
  | tooLong
deriving DecidableEq, Repr

/-- `BodyReader`, with the number of its allocations and the buffers that it has freed. -/
structure BodyReader where
  index : Nat
  left : Int
  buffers : List BodyBuffer
  closed : Bool
  mallocs : Nat
  freed : List Nat
deriving DecidableEq, Repr

def newBodyReader : BodyReader :=
  { index := 0, left := 0, buffers := [], closed := false, mallocs := 0, freed := [] }

def BodyEngine.malloc (engine : BodyEngine) (n size : Nat) : Slice where
  array := (range (size + engine.spare n)).map (engine.contents n)
  len := size
  len_le := by simp

namespace BodyReader

def dropHead (br : BodyReader) (pbuf : BodyBuffer) (rest : List BodyBuffer) : BodyReader :=
  { br with buffers := rest, index := 0, freed := br.freed ++ [pbuf.id] }

/-- The reader behind a copy of `nc` bytes from the first buffer. -/
def copyOut (br : BodyReader) (pbuf : BodyBuffer) (rest : List BodyBuffer) (nc : Nat) :
    BodyReader :=
  let br := if pbuf.slice.len ≤ nc + br.index then br.dropHead pbuf rest
    else { br with index := br.index + nc }
  { br with left := br.left - nc }

/-- The loop of `Read`, with the bytes that have been copied to `p`. -/
def readLoop (need : Nat) : Nat → BodyReader → Bytes → (Bytes × Option BodyErr) × BodyReader
  | 0, br, p => ((p, none), br)
  | fuel + 1, br, p =>
    if p.length < need ∧ 0 < br.left then
      match br.buffers with
      | [] =>
        let br := { br with left := 0 }
        if 0 < p.length then ((p, none), br) else (([], some .eof), br)
      | pbuf :: rest =>
        if pbuf.slice.len ≤ br.index then readLoop need fuel (br.dropHead pbuf rest) p
        else
          let copied := (pbuf.slice.bytes.drop br.index).take (need - p.length)
          readLoop need fuel (br.copyOut pbuf rest copied.length) (p ++ copied)
    else ((p, none), br)

/-- `Read` into `need` bytes: what is copied, and the error.  Every iteration of the loop drops a
buffer or copies a byte. -/
def Read (br : BodyReader) (need : Nat) : (Bytes × Option BodyErr) × BodyReader :=
  if br.closed then (([], some .eof), br)
  else if br.left ≤ 0 then (([], some .eof), br)
  else br.readLoop need (need + br.buffers.length + 1) []

variable (engine : BodyEngine)

def appendBuffer (br : BodyReader) (data : Bytes) : BodyReader :=
  let pbuf := (engine.malloc br.mallocs data.length).copyAt 0 data
  { br with buffers := br.buffers ++ [⟨br.mallocs, pbuf⟩], mallocs := br.mallocs + 1 }

/-- What `append` does to the last buffer: the buffer, and the data that does not fit. -/
def fillTail (pbuf : Slice) (data : Bytes) : Slice × Bytes :=
  let l := pbuf.len
  let bLeft := pbuf.cap - pbuf.len
  if 0 < bLeft then
    let pbuf := if data.length < bLeft then pbuf.cut (l + data.length) else pbuf.cut pbuf.cap
    (pbuf.copyAt l data, data.drop (min (pbuf.len - l) data.length))
  else (pbuf, data)

/-- The part of `append` that stores the data. -/
def store (br : BodyReader) (data : Bytes) : BodyReader :=
  match br.buffers.getLast? with
  | none => br.appendBuffer engine data
  | some tail =>
    let (slice, data) := fillTail tail.slice data
    let br := { br with buffers := br.buffers.dropLast ++ [{ tail with slice := slice }] }
    if data ≠ [] then br.appendBuffer engine data else br

def append (br : BodyReader) (data : Bytes) : Option BodyErr × BodyReader :=
  if data = [] then (none, br)
  else if 0 < engine.maxHTTPBodySize ∧ engine.maxHTTPBodySize < data.length + br.left then
    (some .tooLong, br)
  else (none, { br with left := br.left + data.length }.store engine data)

/-! ## The queue -/

def stored (br : BodyReader) : Bytes := br.buffers.flatMap fun pbuf => pbuf.slice.bytes

def unread (br : BodyReader) : Bytes := br.stored.drop br.index

/-- What a reader that has not been closed keeps: no buffer is empty, the first one has not been
read to its end, and every allocation has been freed or is a buffer, in order. -/
structure Shape (br : BodyReader) : Prop where
  opened : br.closed = false
  nonempty : ∀ pbuf ∈ br.buffers, 0 < pbuf.slice.len
  index : ∀ pbuf rest, br.buffers = pbuf :: rest → br.index < pbuf.slice.len
  start : br.buffers = [] → br.index = 0
  numbers : br.freed ++ br.buffers.map BodyBuffer.id = range br.mallocs

/-- `left` counts the bytes that have not been read. -/
structure WF (br : BodyReader) : Prop extends br.Shape where
  left : br.left = br.unread.length

variable {engine} {br : BodyReader} {pbuf : BodyBuffer} {rest : List BodyBuffer}

theorem stored_cons (h : br.buffers = pbuf :: rest) :
    br.stored = pbuf.slice.bytes ++ rest.flatMap fun pbuf => pbuf.slice.bytes := by
  rw [stored, h, flatMap_cons]

theorem index_le (h : br.Shape) : br.index ≤ br.stored.length := by
  cases hbuf : br.buffers with
  | nil =>
    rw [h.start hbuf]
    exact Nat.zero_le _
  | cons pbuf rest =>
    have hlt := h.index pbuf rest hbuf
    rw [stored_cons hbuf, length_append, Slice.length_bytes]
    omega

theorem bytes_malloc_copy (n : Nat) (data : Bytes) :
    ((engine.malloc n data.length).copyAt 0 data).bytes = data := by
  have hcopy := Slice.take_bytes_copyAt (b := engine.malloc n data.length) 0 data
    (by simp [BodyEngine.malloc])
  have hlen : ((engine.malloc n data.length).copyAt 0 data).bytes.length ≤ 0 + data.length := by
    rw [Slice.length_bytes]
    simp [BodyEngine.malloc]
  rw [take_of_length_le hlen] at hcopy
  simpa using hcopy

theorem bytes_copyAt_tail {b : Slice} {off : Nat} {data : Bytes} (hoff : off ≤ b.len)
    (hdata : b.len - off ≤ data.length) :
    (b.copyAt off data).bytes = b.bytes.take off ++ data.take (b.len - off) := by
  have hsame : b.copyAt off data = b.copyAt off (data.take (b.len - off)) := by
    simp only [Slice.copyAt, take_take, Nat.min_self]
  have hlen : (data.take (b.len - off)).length = b.len - off := by
    rw [length_take]
    omega
  have hcopy := Slice.take_bytes_copyAt (b := b) off (data.take (b.len - off)) (by omega)
  rw [← hsame, take_of_length_le] at hcopy
  · exact hcopy
  · rw [Slice.length_bytes, Slice.len_copyAt]
    omega

theorem bytes_cut_take {b : Slice} (n : Nat) (h : b.len ≤ n) :
    (b.cut n).bytes.take b.len = b.bytes := by
  have hle := b.len_le
  simp only [Slice.cut, Slice.bytes, take_take, Slice.cap]
  congr 1
  omega

theorem fillTail_spec (b : Slice) (data : Bytes) :
    (fillTail b data).1.bytes ++ (fillTail b data).2 = b.bytes ++ data ∧
      b.len ≤ (fillTail b data).1.len := by
  unfold fillTail
  by_cases hspare : 0 < b.cap - b.len
  · rw [if_pos hspare]
    -- in both cases the slice is extended by the part of the data that fits
    have hext : (if data.length < b.cap - b.len then b.cut (b.len + data.length)
        else b.cut b.cap) = b.cut (b.len + min (b.cap - b.len) data.length) := by
      split
      · rw [Nat.min_eq_right (by omega)]
      · congr 1
        omega
    rw [hext]
    generalize hn : min (b.cap - b.len) data.length = n
    have hlen : (b.cut (b.len + n)).len = b.len + n := by
      simp only [Slice.cut]
      omega
    dsimp only
    rw [bytes_copyAt_tail (by omega) (by omega), bytes_cut_take _ (by omega),
      Nat.min_eq_left (by omega), append_assoc, take_append_drop, Slice.len_copyAt]
    exact ⟨rfl, by omega⟩
  · rw [if_neg hspare]
    exact ⟨rfl, Nat.le_refl _⟩

theorem appendBuffer_stored (br : BodyReader) (data : Bytes) :
    (br.appendBuffer engine data).stored = br.stored ++ data := by
  simp [appendBuffer, stored, bytes_malloc_copy]

theorem appendBuffer_shape (h : br.Shape) {data : Bytes} (hne : data ≠ []) :
    (br.appendBuffer engine data).Shape where
  opened := h.opened
  nonempty := by
    intro pbuf hmem
    rcases mem_append.1 hmem with hold | hnew
    · exact h.nonempty pbuf hold
    · rw [mem_singleton.1 hnew]
      exact length_pos_iff.2 hne
  index := by
    intro pbuf rest hbuf
    change br.buffers ++ _ = _ at hbuf
    change br.index < _
    cases hold : br.buffers with
    | nil =>
      rw [hold] at hbuf
      cases hbuf
      rw [h.start hold]
      exact length_pos_iff.2 hne
    | cons head tail =>
      rw [hold] at hbuf
      cases hbuf
      exact h.index _ _ hold
  start := by simp [appendBuffer]
  numbers := by
    have hnumbers := h.numbers
    simp only [appendBuffer, map_append, map_singleton, range_succ, ← hnumbers, append_assoc]

theorem setTail_shape (h : br.Shape) {before : List BodyBuffer} {tail : BodyBuffer} {slice : Slice}
    (hbuf : br.buffers = before ++ [tail]) (hlen : tail.slice.len ≤ slice.len) :
    { br with buffers := before ++ [{ tail with slice := slice }] }.Shape where
  opened := h.opened
  nonempty := by
    intro pbuf hmem
    rcases mem_append.1 hmem with hold | hnew
    · exact h.nonempty pbuf (by rw [hbuf]; exact mem_append_left _ hold)
    · rw [mem_singleton.1 hnew]
      have htail := h.nonempty tail (by simp [hbuf])
      exact Nat.lt_of_lt_of_le htail hlen
  index := by
    intro pbuf rest hcons
    change br.index < _
    cases before with
    | nil =>
      cases hcons
      exact Nat.lt_of_lt_of_le (h.index _ _ hbuf) hlen
    | cons head middle =>
      cases hcons
      exact h.index _ _ hbuf
  start := by simp
  numbers := by
    have hnumbers := h.numbers
    rw [hbuf] at hnumbers
    simpa using hnumbers

theorem unread_of_stored {br' : BodyReader} {data : Bytes} (h : br.Shape)
    (hstored : br'.stored = br.stored ++ data) (hindex : br'.index = br.index) :
    br'.unread = br.unread ++ data := by
  rw [unread, unread, hstored, hindex, drop_append_of_le_length (index_le h)]

theorem store_spec (engine : BodyEngine) (h : br.Shape) {data : Bytes} (hne : data ≠ []) :
    (br.store engine data).Shape ∧ (br.store engine data).stored = br.stored ++ data ∧
      (br.store engine data).index = br.index ∧ (br.store engine data).left = br.left := by
  unfold store
  cases hlast : br.buffers.getLast? with
  | none => exact ⟨appendBuffer_shape h hne, appendBuffer_stored br data, rfl, rfl⟩
  | some tail =>
    have hbuf : br.buffers = br.buffers.dropLast ++ [tail] := by
      rw [dropLast_append_getLast? tail hlast]
    obtain ⟨hbytes, hlen⟩ := fillTail_spec tail.slice data
    dsimp only
    generalize fillTail tail.slice data = r at hbytes hlen ⊢
    have hshape := setTail_shape h hbuf hlen
    have hstored :
        { br with buffers := br.buffers.dropLast ++ [{ tail with slice := r.1 }] }.stored ++ r.2 =
        br.stored ++ data := by
      have hold : br.stored =
          (br.buffers.dropLast.flatMap fun pbuf => pbuf.slice.bytes) ++ tail.slice.bytes := by
        rw [stored, hbuf]
        simp
      rw [hold, append_assoc, ← hbytes]
      simp [stored]
    by_cases hover : r.2 = []
    · rw [hover, append_nil] at hstored
      rw [if_neg (not_not_intro hover)]
      exact ⟨hshape, hstored, rfl, rfl⟩
    · rw [if_pos hover]
      exact ⟨appendBuffer_shape hshape hover, (appendBuffer_stored _ r.2).trans hstored, rfl, rfl⟩

theorem append_spec (engine : BodyEngine) (h : br.WF) (data : Bytes) :
    if data ≠ [] ∧ 0 < engine.maxHTTPBodySize ∧ engine.maxHTTPBodySize < data.length + br.left then
      br.append engine data = (some .tooLong, br)
    else
      (br.append engine data).1 = none ∧ (br.append engine data).2.WF ∧
        (br.append engine data).2.unread = br.unread ++ data := by
  by_cases hne : data = []
  · have heq : br.append engine data = (none, br) := if_pos hne
    rw [hne]
    exact ⟨rfl, h, (append_nil _).symm⟩
  by_cases hlong : 0 < engine.maxHTTPBodySize ∧ engine.maxHTTPBodySize < data.length + br.left
  · rw [if_pos ⟨hne, hlong⟩, append, if_neg hne, if_pos hlong]
  · rw [if_neg (fun hcond => hlong hcond.2), append, if_neg hne, if_neg hlong]
    have hshape : { br with left := br.left + data.length }.Shape :=
      ⟨h.opened, h.nonempty, h.index, h.start, h.numbers⟩
    obtain ⟨hnew, hstored, hindex, hleft⟩ := store_spec engine hshape hne
    have hunread := unread_of_stored h.toShape hstored hindex
    refine ⟨rfl, ⟨hnew, ?_⟩, hunread⟩
    have hold := h.left
    rw [hleft, hunread, length_append]
    push_cast
    omega

/-! ## `Read` -/

end BodyReader

/-! ## Runs -/

inductive BodyOp where
  | append (data : Bytes)
  | read (need : Nat)
deriving DecidableEq, Repr

/-- A reader, with the data that it has accepted and the bytes that it has returned. -/
structure BodyRun where
  br : BodyReader
  appended : Bytes
  returned : Bytes

namespace BodyRun

variable (engine : BodyEngine)

def step (s : BodyRun) : BodyOp → BodyRun
  | .append data =>
    let (err, br) := s.br.append engine data
    { s with br := br, appended := s.appended ++ if err = none then data else [] }
  | .read need =>
    let (ret, br) := s.br.Read need
    { s with br := br, returned := s.returned ++ ret.1 }

def after (ops : List BodyOp) : BodyRun :=
  ops.foldl (step engine) { br := newBodyReader, appended := [], returned := [] }

variable {engine} {s : BodyRun}

end BodyRun

/-- A request that keeps its body as a string of bytes does what one with a `BodyReader` does, as
long as nothing reads from it: the two refuse the same data, and have the same body behind
`OnBody`. -/
theorem addBody_refines {engine : BodyEngine} {conf : ServerConf} {r : HttpRequest}
    {br : BodyReader}
    (hconf : conf.maxHTTPBodySize = engine.maxHTTPBodySize) (h : br.WF)
    (hbody : r.body.getD [] = br.unread) (data : Bytes) :
    ((r.addBody conf data).1 = none ↔ (br.append engine data).1 = none) ∧
      (br.append engine data).2.WF ∧
      (r.addBody conf data).2.body = some (br.append engine data).2.unread := by
  have hspec := BodyReader.append_spec engine h data
  have hleft := h.left
  unfold HttpRequest.addBody
  dsimp only
  rw [hbody, hconf, ← hleft]
  by_cases hne : data = []
  · rw [if_neg (fun hcond => hcond.1 hne)] at hspec
    obtain ⟨hret, hwf, hunread⟩ := hspec
    rw [hunread, hne, append_nil]
    exact ⟨iff_of_true rfl rfl, hne ▸ hwf, rfl⟩
  rw [if_neg hne]
  by_cases hlong : 0 < engine.maxHTTPBodySize ∧ engine.maxHTTPBodySize < data.length + br.left
  · rw [if_pos ⟨hne, hlong⟩] at hspec
    rw [if_pos hlong, hspec]
    exact ⟨by simp, h, rfl⟩
  · rw [if_neg (fun hcond => hlong hcond.2)] at hspec
    obtain ⟨hret, hwf, hunread⟩ := hspec
    rw [if_neg hlong, hret, hunread]
    exact ⟨iff_of_true rfl rfl, hwf, rfl⟩

end Nbio.Http
