import Nbio.Websocket.Reassembly

/-!
# Compressed messages

A message is compressed by `compress/flate`, whose output goes through a `truncWriter` that keeps
back the last four bytes: these are the same for every message and are not sent.  The receiver puts
them back (`flateReaderTail`) and reads the message through the decompressor, into a buffer that it
extends as it goes (`readAll`).

`compress/flate` is a parameter (`Flate`), as are the capacities of the buffers that the allocator
returns.  What is assumed of it is `Flate.Lawful`.
-/

namespace Nbio.Websocket

open Nbio.Go Nbio.Lib List Option

/-! ## Writing -/

/-- The bytes that end what the compressor has flushed. -/
def flushTail : Bytes := [0, 0, 0xff, 0xff]

def flateReaderTail : Bytes := flushTail ++ [1, 0, 0, 0xff, 0xff]

/-- `truncWriter`, with the bytes `w.p[:w.n]` that it keeps back. -/
structure TruncWriter where
  p : Bytes
  length_le : p.length ≤ 4

/-- `Write`: what is written to the writer below, and the writer behind it. -/
def TruncWriter.Write (w : TruncWriter) (data : Bytes) : List Bytes × TruncWriter :=
  let n := min (4 - w.p.length) data.length
  let p := w.p ++ data.take n
  let rest := data.drop n
  have hp : p.length ≤ 4 := by
    have := w.length_le
    simp only [p, n, length_append, length_take]
    omega
  if w.p.length < 4 ∧ rest = [] then ([], { p := p, length_le := hp })
  else
    let m := min rest.length 4
    ([p.take m, rest.take (rest.length - m)],
      { p := p.drop m ++ rest.drop (rest.length - m)
        length_le := by
          simp only [m, length_append, length_drop]
          omega })

/-- `Write` of the `writeBuffer`. -/
def writeBuffer (pbuf : Option Bytes) (data : Bytes) : Option Bytes :=
  match pbuf with
  | none => some data
  | some buf => some (buf ++ data)

/-- The `writeBuffer` of a message and the `truncWriter` over it. -/
structure CompressWriter where
  pbuf : Option Bytes
  trunc : TruncWriter

def CompressWriter.new : CompressWriter :=
  { pbuf := none, trunc := { p := [], length_le := by decide } }

def CompressWriter.Write (w : CompressWriter) (data : Bytes) : CompressWriter :=
  let (writes, trunc) := w.trunc.Write data
  { pbuf := writes.foldl writeBuffer w.pbuf, trunc := trunc }

/-! ## Reading -/

inductive ReadErr where
  | eof
  | other (message : Bytes)
deriving DecidableEq, Repr

/-- `compress/flate`: the writes that the compressor makes for a payload and the flush behind it,
and the reader that the decompressor is of compressed bytes.  `read s n` is a `Read` into `n`
bytes. -/
structure Flate (σ : Type) where
  writes : Bytes → List Bytes
  reader : Bytes → σ
  read : σ → Nat → Bytes × Option ReadErr × σ

def maxAppendSize : Nat := 1024 * 1024 * 4

variable {σ : Type}

/-- The capacity of the buffer that follows a full one of `l` bytes; `capacity n` is that of a
buffer for `n` bytes. -/
def nextCap (o : Options) (capacity : Nat → Nat) (l : Nat) : Nat :=
  let al := if maxAppendSize < l then maxAppendSize else l
  let al := if 0 < o.messageLengthLimit ∧ o.messageLengthLimit < (l + al : Nat) then
    (o.messageLengthLimit - l).toNat else al
  capacity (l + al)

/-- The loop of `readAll`. -/
def readLoop (o : Options) (capacity : Nat → Nat) (read : σ → Nat → Bytes × Option ReadErr × σ) :
    Nat → σ → Bytes → Nat → Option (Except Err Bytes)
  | 0, _, _, _ => none
  | fuel + 1, s, pbuf, cap =>
    let (bytes, err, s) := read s (cap - pbuf.length)
    let pbuf := pbuf ++ bytes
    match err with
    | some .eof => some (.ok pbuf)
    | some (.other message) => some (.error (.decompressor message))
    | none =>
      let l := pbuf.length
      if l = cap then
        if isMessageTooLarge o (l + 1) then some (.error .messageTooLarge)
        else readLoop o capacity read fuel s pbuf (nextCap o capacity l)
      else readLoop o capacity read fuel s pbuf cap

/-- `readAll` over a reader, with a buffer of `size` bytes to begin with. -/
def readAll (o : Options) (capacity : Nat → Nat) (read : σ → Nat → Bytes × Option ReadErr × σ)
    (fuel : Nat) (s : σ) (size : Nat) : Option (Except Err Bytes) :=
  let size :=
    if 0 < o.messageLengthLimit ∧ o.messageLengthLimit < size then o.messageLengthLimit.toNat
    else size
  readLoop o capacity read fuel s [] (capacity size)

/-- What the default compressor leaves in the buffer of a message. -/
def Flate.deflate (c : Flate σ) (data : Bytes) : Option (Option Bytes) :=
  some ((c.writes data).foldl CompressWriter.Write .new).pbuf

/-- `readAll` over the default decompressor.  It reads `fuel` times at most. -/
def Flate.inflate (c : Flate σ) (o : Options) (capacity : Nat → Nat) (fuel : Nat)
    (message : Bytes) : Except Err Bytes :=
  (readAll o capacity c.read fuel (c.reader (message ++ flateReaderTail)) (message.length * 2)).getD
    (.error (.decompressor []))

/-- The receiver with the default decompressor. -/
def Options.withFlate (o : Options) (c : Flate σ) (capacity : Nat → Nat) (fuel : Nat) : Options :=
  { o with inflate := c.inflate o capacity fuel }

/-! ## What is assumed of `compress/flate` -/

/-- Reads of any sizes give the payload and then the end, and before each of them `Also` holds.  A
read may return nothing and no error, finitely often. -/
inductive Yields (read : σ → Nat → Bytes × Option ReadErr × σ) (Also : σ → Bytes → Prop) :
    σ → Bytes → Prop where
  | intro {s : σ} {payload : Bytes} (halso : Also s payload)
    (hlength : ∀ n, (read s n).1.length ≤ n) (hdata : ∀ n, 0 < n → (read s n).1 <+: payload)
    (hmore : ∀ n, 0 < n → (read s n).2.1 = none →
      Yields read Also (read s n).2.2 (payload.drop (read s n).1.length))
    (hend : ∀ n e, 0 < n → (read s n).2.1 = some e → e = .eof ∧ (read s n).1 = payload) :
    Yields read Also s payload

structure Flate.Lawful (c : Flate σ) : Prop where
  long : ∀ payload, 5 ≤ (c.writes payload).flatten.length
  flushed : ∀ payload, flushTail <:+ (c.writes payload).flatten
  inflates : ∀ payload z, (c.writes payload).flatten = z ++ flushTail →
    Yields c.read (fun _ _ => True) (c.reader (z ++ flateReaderTail)) payload

/-! ## The compressor drops the tail -/

/-- The writers together have what was written, and nothing has reached the buffer before four bytes
are kept back. -/
structure CompressWriter.Holds (w : CompressWriter) (data : Bytes) : Prop where
  all : w.pbuf.getD [] ++ w.trunc.p = data
  first : w.trunc.p.length < 4 → w.pbuf = none

theorem getD_foldl_writeBuffer (writes : List Bytes) (pbuf : Option Bytes) :
    (writes.foldl writeBuffer pbuf).getD [] = pbuf.getD [] ++ writes.flatten := by
  induction writes generalizing pbuf with
  | nil => simp
  | cons data writes ih =>
    rw [foldl_cons, ih, flatten_cons, ← append_assoc]
    cases pbuf <;> rfl

/-- What is written below and what is kept back behind a `Write` is what was kept back before it and
the new bytes; fewer than four bytes are kept back only as long as nothing is written below. -/
theorem TruncWriter.Write_spec (w : TruncWriter) (data : Bytes) :
    (w.Write data).1.flatten ++ (w.Write data).2.p = w.p ++ data ∧
      ((w.Write data).2.p.length < 4 → w.p.length < 4 ∧ (w.Write data).1 = []) := by
  have hle := w.length_le
  unfold TruncWriter.Write
  dsimp only
  split
  · next hshort =>
    dsimp only
    generalize min (4 - w.p.length) data.length = n at hshort
    refine ⟨?_, fun _ => ⟨hshort.1, rfl⟩⟩
    have htake : data.take n = data := by
      rw [← append_nil (data.take n), ← hshort.2, take_append_drop]
    rw [flatten_nil, nil_append, htake]
  · next hlong =>
    dsimp only
    generalize hn : min (4 - w.p.length) data.length = n at hlong
    have hfull : (w.p ++ data.take n).length = 4 := by
      rw [length_append, length_take]
      by_cases hw : w.p.length < 4
      · have hrest : data.drop n ≠ [] := fun hnil => hlong ⟨hw, hnil⟩
        have := length_pos_iff.2 hrest
        rw [length_drop] at this
        omega
      · omega
    generalize hm : min (data.drop n).length 4 = m
    refine ⟨?_, fun hlt => ?_⟩
    · have hsplit : w.p ++ data = (w.p ++ data.take n) ++ data.drop n := by
        rw [append_assoc, take_append_drop]
      rw [hsplit]
      generalize data.drop n = rest at hm
      by_cases hr : rest.length ≤ 4
      · have : rest.length - m = 0 := by omega
        simp only [this, take_zero, drop_zero, flatten_cons, flatten_nil, append_nil]
        rw [← append_assoc, take_append_drop]
      · rw [take_of_length_le (by omega), drop_of_length_le (by omega)]
        simp only [flatten_cons, flatten_nil, nil_append, append_assoc]
        rw [take_append_drop]
    · rw [length_append, length_drop, length_drop] at hlt
      omega

theorem CompressWriter.Write_holds {w : CompressWriter} {data new : Bytes} (h : w.Holds data) :
    (w.Write new).Holds (data ++ new) := by
  obtain ⟨hall, hfirst⟩ := w.trunc.Write_spec new
  constructor
  · rw [CompressWriter.Write]
    rw [getD_foldl_writeBuffer, append_assoc, hall, ← append_assoc, h.all]
  · intro hlt
    obtain ⟨hshort, hnone⟩ := hfirst hlt
    rw [CompressWriter.Write]
    dsimp only
    rw [hnone]
    exact h.first hshort

theorem CompressWriter.writes_hold {w : CompressWriter} {data : Bytes} (h : w.Holds data)
    (writes : List Bytes) :
    (writes.foldl CompressWriter.Write w).Holds (data ++ writes.flatten) := by
  induction writes generalizing w data with
  | nil =>
    rw [flatten_nil, append_nil]
    exact h
  | cons new writes ih =>
    rw [flatten_cons, ← append_assoc]
    exact ih (CompressWriter.Write_holds h)

theorem Flate.Lawful.deflate_eq {c : Flate σ} (hc : c.Lawful) (data : Bytes) :
    ∃ z, c.deflate data = some (some z) ∧ z ≠ [] ∧ (c.writes data).flatten = z ++ flushTail := by
  have hnew : CompressWriter.new.Holds [] := ⟨rfl, fun _ => rfl⟩
  obtain ⟨hall, hfirst⟩ := CompressWriter.writes_hold hnew (c.writes data)
  rw [nil_append] at hall
  unfold Flate.deflate
  generalize (c.writes data).foldl CompressWriter.Write .new = w at hall hfirst
  obtain ⟨z, hz⟩ := hc.flushed data
  have hlong := hc.long data
  have hle := w.trunc.length_le
  rw [← hall, length_append] at hlong
  have hfull : w.trunc.p.length = 4 := by
    by_contra hne
    rw [hfirst (by omega)] at hlong
    simp at hlong
    omega
  rw [← hall] at hz
  obtain ⟨hpbuf, htail⟩ := append_inj' hz (by rw [hfull]; rfl)
  cases hw : w.pbuf with
  | none =>
    rw [hw, hfull] at hlong
    simp at hlong
  | some buf =>
    rw [hw, hfull] at hlong
    rw [hw] at hall
    refine ⟨buf, rfl, ?_, ?_⟩
    · rintro rfl
      simp at hlong
    · rw [← hall, ← htail]
      rfl

/-! ## `readAll` reads to the end -/

section ReadLoop

variable {capacity : Nat → Nat} {o : Options} {read : σ → Nat → Bytes × Option ReadErr × σ}
  {Also : σ → Bytes → Prop} {pbuf : Bytes} {cap : Nat}

theorem lt_nextCap (hcapacity : ∀ n, n ≤ capacity n) (hpos : 0 < cap)
    (hlimit : o.messageLengthLimit ≤ 0 ∨ (cap : Int) < o.messageLengthLimit) :
    cap < nextCap o capacity cap := by
  refine Nat.lt_of_lt_of_le ?_ (hcapacity _)
  unfold maxAppendSize
  split <;> split <;> omega

/-- A read without an error that leaves room, or fills a buffer that is not too large: the loop goes
on with room again. -/
theorem readLoop_goes_on (hcapacity : ∀ n, n ≤ capacity n) {s s' : σ} {bytes : Bytes}
    (hcap : pbuf.length < cap) (hread : read s (cap - pbuf.length) = (bytes, none, s'))
    (hle : bytes.length ≤ cap - pbuf.length) (hsmall : (pbuf ++ bytes).length = cap →
      o.messageLengthLimit ≤ 0 ∨ (cap : Int) < o.messageLengthLimit) :
    ∃ cap', (pbuf ++ bytes).length < cap' ∧
      (cap' = cap ∨ (pbuf ++ bytes).length = cap ∧ cap' = nextCap o capacity cap) ∧
      ∀ fuel, readLoop o capacity read (fuel + 1) s pbuf cap =
        readLoop o capacity read fuel s' (pbuf ++ bytes) cap' := by
  by_cases hfull : (pbuf ++ bytes).length = cap
  · refine ⟨nextCap o capacity cap, ?_, .inr ⟨hfull, rfl⟩, fun fuel => ?_⟩
    · rw [hfull]
      exact lt_nextCap hcapacity (by omega) (hsmall hfull)
    · have hnot : ¬ isMessageTooLarge o (cap + 1) = true := by
        have hlimit := hsmall hfull
        rw [isMessageTooLarge, Bool.and_eq_true, decide_eq_true_eq, decide_eq_true_eq]
        omega
      rw [readLoop, hread]
      dsimp only
      rw [if_pos hfull, hfull, if_neg hnot]
  · refine ⟨cap, ?_, .inl rfl, fun fuel => ?_⟩
    · rw [length_append] at hfull ⊢
      omega
    · rw [readLoop, hread]
      dsimp only
      rw [if_neg hfull]

/-- The loop returns `r` once it has fuel enough. -/
def LoopReturns (o : Options) (capacity : Nat → Nat) (read : σ → Nat → Bytes × Option ReadErr × σ)
    (s : σ) (pbuf : Bytes) (cap : Nat) (r : Except Err Bytes) : Prop :=
  ∃ least, ∀ fuel, least ≤ fuel → readLoop o capacity read fuel s pbuf cap = some r

theorem LoopReturns.at_once {s : σ} {r : Except Err Bytes}
    (h : ∀ fuel, readLoop o capacity read (fuel + 1) s pbuf cap = some r) :
    LoopReturns o capacity read s pbuf cap r := by
  refine ⟨1, fun fuel hfuel => ?_⟩
  obtain ⟨fuel, rfl⟩ := Nat.exists_eq_add_of_le' hfuel
  exact h fuel

theorem LoopReturns.behind {s s' : σ} {pbuf' : Bytes} {cap' : Nat} {r : Except Err Bytes}
    (hrest : LoopReturns o capacity read s' pbuf' cap' r)
    (h : ∀ fuel, readLoop o capacity read (fuel + 1) s pbuf cap =
      readLoop o capacity read fuel s' pbuf' cap') :
    LoopReturns o capacity read s pbuf cap r := by
  obtain ⟨least, hleast⟩ := hrest
  refine ⟨least + 1, fun fuel hfuel => ?_⟩
  obtain ⟨fuel, rfl⟩ := Nat.exists_eq_add_of_le' (Nat.le_of_add_left_le hfuel)
  rw [h, hleast fuel (by omega)]

theorem readLoop_yields (hlimit : o.messageLengthLimit ≤ 0)
    (hcapacity : ∀ n, n ≤ capacity n) {s : σ}
    {payload : Bytes} (h : Yields read Also s payload) (hcap : pbuf.length < cap) :
    LoopReturns o capacity read s pbuf cap (.ok (pbuf ++ payload)) := by
  induction h generalizing pbuf cap with
  | @intro s payload _ hlength hdata hmore hend ih =>
    have hn : 0 < cap - pbuf.length := by omega
    have hle := hlength (cap - pbuf.length)
    obtain ⟨rest, hrest⟩ := hdata _ hn
    have hmore := ih _ hn
    have hend := fun e => hend _ e hn
    generalize hread : read s (cap - pbuf.length) = r at hle hrest hmore hend
    obtain ⟨bytes, err, s'⟩ := r
    dsimp only at hle hrest hmore hend
    cases err with
    | some e =>
      obtain ⟨rfl, rfl⟩ := hend e rfl
      exact .at_once fun fuel => by rw [readLoop, hread]
    | none =>
      have hpayload : pbuf ++ payload = pbuf ++ bytes ++ payload.drop bytes.length := by
        rw [← hrest, drop_left, append_assoc]
      obtain ⟨cap', hcap', -, hloop⟩ :=
        readLoop_goes_on hcapacity hcap hread hle fun _ => .inl hlimit
      rw [hpayload]
      exact (hmore rfl hcap').behind hloop

end ReadLoop

variable {capacity : Nat → Nat}

theorem Flate.Lawful.inflate_eq {c : Flate σ} (hc : c.Lawful) {o : Options}
    (hlimit : o.messageLengthLimit ≤ 0) (hcapacity : ∀ n, n ≤ capacity n) {payload z : Bytes}
    (hz : (c.writes payload).flatten = z ++ flushTail) (hne : z ≠ []) :
    ∃ least, ∀ fuel, least ≤ fuel → c.inflate o capacity fuel z = .ok payload := by
  have hpos := length_pos_iff.2 hne
  have hcap := hcapacity (z.length * 2)
  have hroom : ([] : Bytes).length < capacity (z.length * 2) := by
    rw [length_nil]
    omega
  obtain ⟨least, hleast⟩ := readLoop_yields hlimit hcapacity (hc.inflates payload z hz) hroom
  refine ⟨least, fun fuel hfuel => ?_⟩
  rw [Flate.inflate, readAll, if_neg (fun h => absurd h.1 (by omega)), hleast fuel hfuel]
  rfl

/-! ## The round trip -/

variable {o : Options} {p : Sender} {w : Sent}

/-- What is sent for a message is not empty and inflated to the message. -/
def Inflates (p : Sender) (o : Options) (data : Bytes) : Prop :=
  ∃ z, p.deflate data = some (some z) ∧ z ≠ [] ∧ z.length + 14 < 2 ^ 63 ∧ o.inflate z = .ok data

/-- A sender that is open and compresses, over a connection that takes every frame, and a receiver
with compression, a message handler and no limit on messages. -/
structure Compressing (p : Sender) (o : Options) : Prop where
  isOpen : p.closed = false
  compresses : p.enableWriteCompression = true
  accepts : ∀ n, p.refuses n = none
  unlimited : o.messageLengthLimit ≤ 0
  enabled : o.enableCompression = true
  handled : o.messageHandler = true

theorem writeMessage_consumed (h : Compressing p o) {t : MessageType} (ht : isTextOrBinary t)
    {data : Bytes}
    (hdata : Inflates p o data) :
    ∃ count frames, writeMessage p w t data =
      (none, { count := count, frames := w.frames ++ frames }) ∧
      ∃ calls, deliveries calls = [.message t data] ∧ ∀ log,
        (scanner o).ConsumesEach ⟨.idle, log⟩ frames ⟨.idle, log ++ calls⟩ := by
  obtain ⟨z, hz, hne, hlen, hinflate⟩ := hdata
  have hcontrol : isControl t = false := by
    rcases ht with rfl | rfl <;> rfl
  have htype : (t == textMessage || t == binaryMessage) = true := by
    rcases ht with rfl | rfl <;> rfl
  have hcompressed : compressed p t data = (true, z) := by
    rw [compressed, h.compresses, htype, hz]
    rfl
  have hwhole : wholeMessage o true (some ([] ++ z)) = .ok (some data) := by
    rw [nil_append, wholeMessage, hinflate]
    rfl
  obtain ⟨count, frames, heq, -, hshort, hcons⟩ := writeFrames_consumed
    h.accepts h.unlimited h.handled ht (fun _ => h.enabled) hne (Nat.le_refl _) hwhole
  refine ⟨count, frames, ?_, hcons (by rw [nil_append]; omega) fun x hx => ?_⟩
  · rw [writeMessage, writeMessageBy, h.isOpen, hcontrol, hcompressed]
    dsimp only
    rw [if_pos hne]
    exact heq
  · have := hshort x hx
    omega

theorem writeMessages_consumed (h : Compressing p o) {messages : List (MessageType × Bytes)}
    (ht : ∀ m ∈ messages, isTextOrBinary m.1) (hmessages : ∀ m ∈ messages, Inflates p o m.2) :
    ∃ count frames, writeMessages p w messages =
        (none, { count := count, frames := w.frames ++ frames }) ∧
      ∃ calls, deliveries calls = messages.map (fun m => .message m.1 m.2) ∧ ∀ log,
        (scanner o).ConsumesEach ⟨.idle, log⟩ frames ⟨.idle, log ++ calls⟩ := by
  induction messages generalizing w with
  | nil =>
    refine ⟨w.count, [], by rw [append_nil]; rfl, [], rfl, fun log => ?_⟩
    rw [append_nil]
    rfl
  | cons message messages ih =>
    obtain ⟨count, frames, heq, calls, hcalls, hcons⟩ := writeMessage_consumed h
      (ht _ mem_cons_self) (hmessages _ mem_cons_self)
    obtain ⟨count', frames', heq', calls', hcalls', hcons'⟩ := ih
      (fun m hm => ht m (mem_cons_of_mem _ hm)) fun m hm => hmessages m (mem_cons_of_mem _ hm)
    rw [writeMessages, heq]
    refine ⟨count', frames ++ frames', by rw [← append_assoc]; exact heq', calls ++ calls', ?_,
      fun log => ?_⟩
    · rw [deliveries_append, hcalls, hcalls']
      rfl
    · rw [← append_assoc]
      exact (hcons log).append (hcons' (log ++ calls))

theorem Flate.Lawful.inflates_all {c : Flate σ} (hc : c.Lawful) (hlimit : o.messageLengthLimit ≤ 0)
    (hcapacity : ∀ n, n ≤ capacity n) {messages : List (MessageType × Bytes)}
    (hsize : ∀ m ∈ messages, (c.writes m.2).flatten.length + 14 < 2 ^ 63) :
    ∃ least, ∀ fuel, least ≤ fuel → ∀ m ∈ messages,
      Inflates { p with deflate := c.deflate } (o.withFlate c capacity fuel) m.2 := by
  induction messages with
  | nil => exact ⟨0, nofun⟩
  | cons message messages ih =>
    obtain ⟨z, hz, hne, hflat⟩ := hc.deflate_eq message.2
    obtain ⟨first, hfirst⟩ := hc.inflate_eq hlimit hcapacity hflat hne
    obtain ⟨least, hleast⟩ := ih fun m hm => hsize m (mem_cons_of_mem _ hm)
    have hlen := hsize message mem_cons_self
    rw [hflat, length_append] at hlen
    refine ⟨max first least, fun fuel hfuel m hm => ?_⟩
    rcases mem_cons.1 hm with rfl | hm
    · exact ⟨z, hz, hne, by omega, hfirst fuel (by omega)⟩
    · exact hleast fuel (by omega) m hm

/-- Messages of any length that are sent compressed are delivered as they were, in order, whether
the receiver is fed the frames one by one or cut in any other way within its `ReadLimit`, and the
receiver is then as new. -/
theorem compressed_round_trip (c : Flate σ) (hc : c.Lawful) (capacity : Nat → Nat)
    (hcapacity : ∀ n, n ≤ capacity n) (p : Sender) (o : Options)
    (messages : List (MessageType × Bytes)) (hopen : p.closed = false)
    (hcompress : p.enableWriteCompression = true) (haccept : ∀ n, p.refuses n = none)
    (hlimit : o.messageLengthLimit ≤ 0) (henable : o.enableCompression = true)
    (hhandler : o.messageHandler = true) (ht : ∀ m ∈ messages, isTextOrBinary m.1)
    (hsize : ∀ m ∈ messages, (c.writes m.2).flatten.length + 14 < 2 ^ 63) :
    let sent := writeMessages { p with deflate := c.deflate } ⟨0, []⟩ messages
    sent.1 = none ∧ ∃ least, ∀ fuel, least ≤ fuel →
      let o := o.withFlate c capacity fuel
      ∃ log, deliveries log = messages.map (fun m => .message m.1 m.2) ∧
        feed o newConn [] sent.2.frames = (log, .ok newConn) ∧
        ∀ segs : List Bytes, segs.flatten = sent.2.frames.flatten →
          fitsReadLimit o newConn [] segs = true → feed o newConn [] segs = (log, .ok newConn) := by
  obtain ⟨least, hleast⟩ := hc.inflates_all hlimit hcapacity hsize
  have hsent := fun fuel hfuel => writeMessages_consumed (w := ⟨0, []⟩)
    (o := o.withFlate c capacity fuel)
    (p := { p with deflate := c.deflate }) ⟨hopen, hcompress, haccept, hlimit, henable, hhandler⟩ ht
    (hleast fuel hfuel)
  constructor
  · obtain ⟨count, frames, heq, -⟩ := hsent least (Nat.le_refl _)
    rw [heq]
  · refine ⟨least, fun fuel hfuel => ?_⟩
    obtain ⟨count, frames, heq, calls, hcalls, hcons⟩ := hsent fuel hfuel
    rw [heq]
    have hfeed : ∀ segs : List Bytes, segs.flatten = frames.flatten →
        fitsReadLimit (o.withFlate c capacity fuel) newConn [] segs = true →
        feed (o.withFlate c capacity fuel) newConn [] segs = (calls, .ok newConn) := by
      intro segs hcut hfits
      rw [feed_newConn_of_fits hfits, hcut]
      exact congrArg result (hcons []).flatten.run
    exact ⟨calls, hcalls, hfeed frames rfl (fits_of_consumesEach (hcons [])), hfeed⟩

/-! ### Stored blocks -/

/-- The head of a stored block: the bits of its kind, its length and the complement of that. -/
def storedHead (final : Bool) (n : Nat) : Bytes :=
  (if final then 1 else 0) :: (putLeUint 2 n ++ putLeUint 2 (65535 - n))

/-- What the compressor writes without compression: blocks of up to 65535 bytes. -/
def storedWrites : Nat → Bytes → List Bytes
  | 0, _ => []
  | fuel + 1, payload =>
    if payload = [] then []
    else
      let block := payload.take 65535
      storedHead false block.length :: block :: storedWrites fuel (payload.drop 65535)

/-- The data of stored blocks up to the final one, and what ends it. -/
def storedData : Nat → Bytes → Bytes × ReadErr
  | 0, _ => ([], .other (ascii "unexpected EOF"))
  | fuel + 1, z =>
    let n := leUint ((z.drop 1).take 2)
    let rest := z.drop 5
    if leUint ((z.drop 3).take 2) ≠ 65535 - n ∨ rest.length < n then
      ([], .other (ascii "flate: corrupt input"))
    else if z.headD 0 = 1 then (rest.take n, .eof)
    else
      let more := storedData fuel (rest.drop n)
      (rest.take n ++ more.1, more.2)

/-- `compress/flate` without compression; the flush is an empty block. -/
def storing : Flate (Bytes × ReadErr) where
  writes payload := storedWrites payload.length payload ++ [storedHead false 0]
  reader z := storedData z.length z
  read s n := (s.1.take n, if s.1.length ≤ n then some s.2 else none, s.1.drop n, s.2)

theorem storedData_block (final : Bool) (block rest : Bytes) (hlen : block.length ≤ 65535)
    (fuel : Nat) : storedData (fuel + 1) (storedHead final block.length ++ (block ++ rest)) =
      if final then (block, .eof)
      else (block ++ (storedData fuel rest).1, (storedData fuel rest).2) := by
  have hn : leUint (putLeUint 2 block.length) = block.length := leUint_putLeUint (by omega)
  have hc : leUint (putLeUint 2 (65535 - block.length)) = 65535 - block.length :=
    leUint_putLeUint (by omega)
  have h1 : (storedHead final block.length ++ (block ++ rest)).drop 1 =
      putLeUint 2 block.length ++ (putLeUint 2 (65535 - block.length) ++ (block ++ rest)) :=
    append_assoc _ _ _
  have h3 : (storedHead final block.length ++ (block ++ rest)).drop 3 =
      putLeUint 2 (65535 - block.length) ++ (block ++ rest) := by
    rw [← drop_drop (i := 2) (j := 1), h1, drop_left' (length_putLeUint _ _)]
  have h5 : (storedHead final block.length ++ (block ++ rest)).drop 5 = block ++ rest :=
    drop_left' (by simp [storedHead])
  rw [storedData, h1, h3, h5, take_left' (length_putLeUint _ _), take_left' (length_putLeUint _ _),
    hn, hc, if_neg (by simp), take_left, drop_left]
  cases final <;> rfl

theorem storedData_writes {fuel : Nat} {payload : Bytes} (hfuel : payload.length ≤ fuel)
    (rest : Bytes) : ∃ blocks ≤ (storedWrites fuel payload).flatten.length, ∀ more,
      storedData (more + blocks) ((storedWrites fuel payload).flatten ++ rest) =
        (payload ++ (storedData more rest).1, (storedData more rest).2) := by
  induction fuel generalizing payload with
  | zero =>
    obtain rfl := eq_nil_of_length_eq_zero (Nat.le_zero.1 hfuel)
    exact ⟨0, Nat.le_refl _, fun _ => rfl⟩
  | succ fuel ih =>
    by_cases hnil : payload = []
    · subst hnil
      exact ⟨0, Nat.le_refl _, fun _ => rfl⟩
    have hpos := length_pos_iff.2 hnil
    have hdrop := length_drop (i := 65535) (l := payload)
    obtain ⟨blocks, hblocks, hdata⟩ := @ih (payload.drop 65535) (by omega)
    rw [storedWrites, if_neg hnil, flatten_cons, flatten_cons]
    refine ⟨blocks + 1, ?_, fun more => ?_⟩
    · simp only [length_append, storedHead, length_cons]
      omega
    · rw [append_assoc, append_assoc, ← Nat.add_assoc, storedData_block false _ _
        (length_take_le _ _), hdata more, if_neg Bool.false_ne_true, ← append_assoc,
          take_append_drop]

theorem storing_yields (payload : Bytes) :
    Yields storing.read (fun _ _ => True) (payload, .eof) payload := by
  induction hn : payload.length using Nat.strong_induction_on generalizing payload with
  | h n ih =>
    refine .intro trivial (fun k => length_take_le k payload)
      (fun k _ => take_prefix k payload) ?_ ?_
    · intro k hk hnone
      have hlt : k < payload.length := by
        by_contra hle
        simp only [storing, if_pos (Nat.le_of_not_lt hle)] at hnone
        cases hnone
      have hdrop : (payload.drop k).length < n := by
        rw [length_drop]
        omega
      simp only [storing, length_take, Nat.min_eq_left (Nat.le_of_lt hlt)]
      exact ih _ hdrop _ rfl
    · intro k e _ hsome
      obtain ⟨hle, ⟨⟩⟩ := ite_none_right_eq_some.1 hsome
      exact ⟨rfl, take_of_length_le hle⟩

theorem storing_lawful : storing.Lawful := by
  have hflat : ∀ payload, (storing.writes payload).flatten =
      ((storedWrites payload.length payload).flatten ++ [0]) ++ flushTail := by
    intro payload
    rw [storing, flatten_append, append_assoc]
    rfl
  refine ⟨fun payload => ?_, fun payload => ⟨_, (hflat payload).symm⟩, fun payload z hz => ?_⟩
  · rw [hflat, length_append, length_append]
    exact Nat.le_add_left 5 _
  · obtain rfl := append_cancel_right ((hflat payload).symm.trans hz)
    -- the empty block of the flush, and the final one
    have htail : ∀ more, storedData (more + 2) ([0] ++ flateReaderTail) = ([], .eof) := by
      intro more
      have hfinal := storedData_block true [] [] (Nat.zero_le _) more
      have hflush := storedData_block false [] (storedHead true 0) (Nat.zero_le _) (more + 1)
      rw [append_nil, append_nil] at hfinal
      rw [length_nil] at hfinal
      rw [hfinal] at hflush
      exact hflush
    obtain ⟨blocks, hblocks, hdata⟩ := storedData_writes (Nat.le_refl payload.length)
      ([0] ++ flateReaderTail)
    rw [append_assoc]
    have hlength :
        ((storedWrites payload.length payload).flatten ++ ([0] ++ flateReaderTail)).length =
        (storedWrites payload.length payload).flatten.length - blocks + 8 + 2 + blocks := by
      simp only [length_append, length_cons, length_nil, flateReaderTail, flushTail]
      omega
    have hreader : storing.reader ((storedWrites payload.length payload).flatten ++
        ([0] ++ flateReaderTail)) = (payload, .eof) := by
      change storedData (length _) _ = _
      rw [hlength, hdata, htail, append_nil]
    rw [hreader]
    exact storing_yields payload

/-- An empty message and one in several frames of two bytes, from a client. -/
theorem compressed_round_trip_stored :
    let p : Sender := { plainClient with
      enableWriteCompression := true, maxWebsocketFramePayloadSize := 2, deflate := storing.deflate
      maxWebsocketFramePayloadSize_pos := by decide }
    let o : Options := { plainOptions with enableCompression := true }
    let messages : List (MessageType × Bytes) :=
      [(binaryMessage, []), (textMessage, [97, 98, 99, 100])]
    let frames := (writeMessages p ⟨0, []⟩ messages).2.frames
    frames.length = 6 ∧ ∃ fuel log,
      feed (o.withFlate storing (fun n => n) fuel) newConn [] frames = (log, .ok newConn) ∧
        deliveries log = [.message 2 [], .message 1 [97, 98, 99, 100]] := by
  intro p o messages frames
  obtain ⟨-, least, hleast⟩ := compressed_round_trip storing storing_lawful (fun n => n)
    (fun n => Nat.le_refl n) p o messages rfl rfl (fun _ => rfl) (by decide) rfl rfl
    (by simp [messages, isTextOrBinary]) (by decide)
  obtain ⟨log, hlog, hfeed, -⟩ := hleast least (Nat.le_refl _)
  exact ⟨by decide +kernel, least, log, hfeed, hlog⟩

end Nbio.Websocket
