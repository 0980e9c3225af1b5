import Nbio.Http.Response

/-!
# Chunked responses

What a chunked response puts on the wire, for any sequence of `Write` and `Flush`.  The view
`Exchange.out` is what has been sent followed by what waits in the buffer; a `Write` extends it by
one chunk (`Exchange.Puts`) except where `writeChunk` starts from no buffer with little data: there
the new buffer is not cut to length zero, and its old contents go out in front of the chunk.
-/

namespace Nbio.Http

open Nbio.Go List
open Response (formatInt)

/-! ## The chunked coding -/

/-- One chunk, as `writeChunk` builds it. -/
def chunk (data : Bytes) : Bytes := Response.formatInt data.length 16 ++ crlf ++ data ++ crlf

/-- Read one chunk: its size, its data, and what follows it. -/
def readChunk (s : Bytes) : Option (Bytes × Bytes) :=
  let size := s.takeWhile isHex
  if size = [] then none
  else
    match s.drop size.length with
    | 13 :: 10 :: rest =>
      match rest.drop (digitsVal 16 0 size) with
      | 13 :: 10 :: rest' => some (rest.take (digitsVal 16 0 size), rest')
      | _ => none
    | _ => none

/-- Decode chunks up to the empty one, behind which nothing may follow. -/
def decodeChunks : Nat → Bytes → Option Bytes
  | 0, _ => none
  | fuel + 1, s =>
    match readChunk s with
    | none => none
    | some ([], rest) => if rest = [] then some [] else none
    | some (data, rest) => (decodeChunks fuel rest).map (data ++ ·)

def chunkDecode (s : Bytes) : Option Bytes := decodeChunks (s.length + 1) s

theorem digitsVal_append (base n : Nat) (s t : Bytes) :
    digitsVal base n (s ++ t) = digitsVal base (digitsVal base n s) t :=
  foldl_append

theorem numMap_spec {d : Nat} (h : d < 16) :
    ∃ c, Response.numMap.getD d 0 = c ∧ isHex c = true ∧ digitVal c = some d := by
  have hall : ∀ d < 16, isHex (Response.numMap.getD d 0) = true ∧
      digitVal (Response.numMap.getD d 0) = some d := by decide
  exact ⟨_, rfl, hall d h⟩

/-- A digit string of `n` in base 16, as short as possible. -/
structure IsHexOf (n : Nat) (ds : Bytes) : Prop where
  ne : ds ≠ []
  hex : ds.all isHex = true
  val : digitsVal 16 0 ds = n
  lt : n < 16 ^ ds.length
  le : ds.length = 1 ∨ 16 ^ (ds.length - 1) ≤ n

theorem IsHexOf.digit {n : Nat} {c : UInt8} (hlt : n < 16) (hhex : isHex c = true)
    (hval : digitVal c = some n) : IsHexOf n [c] where
  ne := cons_ne_nil c []
  hex := by simp [hhex]
  val := by simp [digitsVal, hval]
  lt := by simpa using hlt
  le := .inl rfl

theorem IsHexOf.append {n d : Nat} {ds : Bytes} {c : UInt8} (h : IsHexOf n ds) (hn : n ≠ 0)
    (hlt : d < 16) (hhex : isHex c = true) (hval : digitVal c = some d) :
    IsHexOf (n * 16 + d) (ds ++ [c]) where
  ne := by simp
  hex := by simp [h.hex, hhex]
  val := by
    rw [digitsVal_append, h.val, digitsVal_cons, hval]
    rfl
  lt := by
    have := h.lt
    rw [length_append, length_singleton]
    omega
  le := by
    right
    have hpos := length_pos_iff.2 h.ne
    rw [length_append, length_singleton, Nat.add_sub_cancel]
    rcases h.le with hone | hle
    · rw [hone]
      omega
    · have hpow : 16 ^ ds.length = 16 ^ (ds.length - 1) * 16 := by
        rw [← Nat.pow_succ, Nat.succ_eq_add_one, Nat.sub_add_cancel hpos]
      omega

theorem formatLoop_spec (i n : Nat) (acc : Bytes) (h : n < 16 ^ (i + 1)) :
    ∃ ds, Response.formatLoop 16 (i + 1) n acc = ds ++ acc ∧ IsHexOf n ds := by
  induction i generalizing n acc with
  | zero =>
    have hlt : n < 16 := h
    obtain ⟨c, hc, hhex, hval⟩ := numMap_spec hlt
    refine ⟨[c], ?_, .digit hlt hhex hval⟩
    rw [Response.formatLoop, Nat.mod_eq_of_lt hlt, hc, Nat.div_eq_of_lt hlt]
    rfl
  | succ i ih =>
    obtain ⟨c, hc, hhex, hval⟩ := numMap_spec (Nat.mod_lt n (show 16 > 0 by decide))
    rw [Response.formatLoop, hc]
    by_cases hdiv : n / 16 = 0
    · have hlt : n < 16 := by omega
      rw [Nat.mod_eq_of_lt hlt] at hval
      exact ⟨[c], if_pos hdiv, .digit hlt hhex hval⟩
    · have hlt : n / 16 < 16 ^ (i + 1) := by
        rw [Nat.div_lt_iff_lt_mul (by decide)]
        exact h
      obtain ⟨ds, heq, hds⟩ := ih (n / 16) (c :: acc) hlt
      have happ := hds.append hdiv (Nat.mod_lt n (by decide)) hhex hval
      rw [Nat.div_add_mod'] at happ
      refine ⟨ds ++ [c], ?_, happ⟩
      simp only [if_neg hdiv, heq, append_assoc, singleton_append]

theorem formatInt_spec {n : Nat} (h : n ≤ 0x7FFFFFFF) : IsHexOf n (formatInt n 16) := by
  obtain ⟨ds, heq, hds⟩ := formatLoop_spec 9 n [] (by omega)
  rw [formatInt, if_neg (by omega), heq, append_nil]
  exact hds

variable {data : Bytes}

theorem readChunk_chunk {rest : Bytes} (h : data.length ≤ 0x7FFFFFFF) :
    readChunk (chunk data ++ rest) = some (data, rest) := by
  have hs := formatInt_spec h
  generalize hsz : formatInt data.length 16 = size at hs
  have htake : (size ++ CR :: LF :: (data ++ CR :: LF :: rest)).takeWhile isHex = size := by
    rw [takeWhile_append_of_pos (all_eq_true.1 hs.hex)]
    simp [show isHex CR = false by decide]
  have hsplit : chunk data ++ rest = size ++ CR :: LF :: (data ++ CR :: LF :: rest) := by
    simp [chunk, hsz]
  rw [hsplit, readChunk, htake]
  simp only [if_neg hs.ne, drop_left, hs.val, take_left]

theorem readChunk_cr (rest : Bytes) : readChunk (CR :: rest) = none := by
  simp [readChunk, show isHex CR = false by decide]

theorem decodeChunks_chunk {rest : Bytes} (fuel : Nat) (hne : data ≠ [])
    (hlen : data.length ≤ 0x7FFFFFFF) :
    decodeChunks (fuel + 1) (chunk data ++ rest) =
      (decodeChunks fuel rest).map (data ++ ·) := by
  obtain ⟨c, cs, rfl⟩ := exists_cons_of_ne_nil hne
  rw [decodeChunks, readChunk_chunk hlen]

theorem decodeChunks_chunks {ds : List Bytes} {rest : Bytes} (fuel : Nat)
    (h : ∀ d ∈ ds, d ≠ [] ∧ d.length ≤ 0x7FFFFFFF) :
    decodeChunks (ds.length + fuel) (ds.flatMap chunk ++ rest) =
      (decodeChunks fuel rest).map (ds.flatten ++ ·) := by
  induction ds with
  | nil => simp
  | cons d ds ih =>
    obtain ⟨hne, hlen⟩ := h d mem_cons_self
    have ih := ih fun d' hd' => h d' (mem_cons_of_mem _ hd')
    rw [length_cons, Nat.add_right_comm, flatMap_cons, append_assoc,
      decodeChunks_chunk _ hne hlen, ih, Option.map_map]
    congr 1
    funext t
    simp

/-! ## What a response has on its way to the wire -/

def bufData (b : Option Buf) : Bytes := (b.map Buf.data).getD []

@[simp] theorem bufData_none : bufData none = [] := rfl

@[simp] theorem bufData_some (b : Buf) : bufData (some b) = b.data := rfl

/-- The part of a chunked message that follows the line of its last chunk. -/
def Response.trailerSection (env : Env) (trailer : List (Bytes × Bytes)) : Bytes :=
  ((env.rangeTrailer trailer).map fun kv => kv.1 ++ [COLON, SP] ++ kv.2 ++ crlf).flatten ++ crlf

def Response.lastChunk (env : Env) (trailer : List (Bytes × Bytes)) : Bytes :=
  ascii "0\r\n" ++ trailerSection env trailer

namespace Exchange

/-- What has been sent, and then what waits in the buffer. -/
def out (x : Exchange) : Bytes := x.sent.flatten ++ bufData x.res.buffer

/-- A chunked response whose head has been encoded, with these trailers. -/
structure Streams (t : List (Bytes × Bytes)) (x : Exchange) : Prop where
  conn : x.res.conn = true
  hijacked : x.res.hijacked = false
  chunkChecked : x.res.chunkChecked = true
  chunked : x.res.chunked = true
  headEncoded : x.res.headEncoded = true
  trailer : x.res.trailer = t
  bodyBuffer : x.res.bodyBuffer = none

variable {env : Env} {x y : Exchange} {b : Buf} {t : List (Bytes × Bytes)}

@[simp] theorem appends_fst (parts : List Bytes) :
    (x.appends b parts).1.data = b.data ++ parts.flatten := by
  induction parts generalizing x b with
  | nil => simp [appends]
  | cons p parts ih => simp [appends, ih, append]

@[simp] theorem appends_res (parts : List Bytes) : (x.appends b parts).2.res = x.res := by
  induction parts generalizing x b with
  | nil => rfl
  | cons p parts ih => simp [appends, ih, append]

@[simp] theorem appends_sent (parts : List Bytes) : (x.appends b parts).2.sent = x.sent := by
  induction parts generalizing x b with
  | nil => rfl
  | cons p parts ih => simp [appends, ih, append]

theorem send_ok (h : ∀ n, env.connErr n = none) :
    (x.send env b).1.2 = none ∧ (x.send env b).2.sent = x.sent ++ [b.data] ∧
      (x.send env b).2.res = x.res := by
  simp [send, connWrite, h]

theorem sendChunk_spec (h : ∀ n, env.connErr n = none) (hb : x.res.buffer = none) (data : Bytes) :
    let y := (x.sendChunk env b data).2
    y.out = x.out ++ (b.data ++ data ++ crlf) ∧ y.res = { x.res with buffer := y.res.buffer } ∧
      (y.res.buffer = none ↔ maxPacketSize ≤ b.data.length + data.length + 2) := by
  unfold sendChunk
  generalize happ : x.appends b [data, crlf] = r
  obtain ⟨b', x'⟩ := r
  have hdata : b'.data = b.data ++ data ++ crlf := by
    have := appends_fst (x := x) (b := b) [data, crlf]
    rw [happ] at this
    simpa using this
  have hres : x'.res = x.res := by
    have := appends_res (x := x) (b := b) [data, crlf]
    rwa [happ] at this
  have hsent : x'.sent = x.sent := by
    have := appends_sent (x := x) (b := b) [data, crlf]
    rwa [happ] at this
  have hlen : b'.data.length = b.data.length + data.length + 2 := by simp [hdata]; omega
  by_cases hlt : b'.data.length < maxPacketSize
  · simp only [if_pos hlt]
    refine ⟨?_, ?_, ?_⟩
    · simp [out, setBuffer, hb, hsent, hdata]
    · simp [setBuffer, hres]
    · simp [setBuffer]
      omega
  · obtain ⟨herr, hsent', hres'⟩ := send_ok (x := x') (b := b') h
    simp only [if_neg hlt, herr]
    refine ⟨?_, ?_, ?_⟩
    · simp [out, free, hb, hsent, hsent', hres, hres', hdata]
    · have hy : ((x'.send env b').2.free b').res = x.res := hres'.trans hres
      rw [hy]
    · simp [free, hres, hres', hb]
      omega

theorem chunk_eq (data : Bytes) :
    chunk data = formatInt data.length 16 ++ crlf ++ (data ++ crlf) := by
  simp [chunk]

def Small (data : Bytes) : Prop :=
  (Response.formatInt data.length 16).length + data.length + 4 < maxPacketSize

/-- `writeChunk` from no buffer with little data: the old contents of the new buffer stand in
front of the chunk. -/
theorem putChunk_none_small (env : Env) (hb : x.res.buffer = none) (hsmall : Small data) :
    let y := (x.putChunk env none data).2
    (∃ garbage, garbage.length = (formatInt data.length 16).length + data.length + 4 ∧
      (∀ c ∈ garbage, ∃ i, c = env.contents x.nextBuf i) ∧
      y.out = x.out ++ garbage ++ chunk data) ∧
      y.res = { x.res with buffer := y.res.buffer } ∧ y.res.buffer ≠ none := by
  unfold putChunk
  simp only [if_pos (show _ < maxPacketSize from hsmall)]
  refine ⟨⟨(x.malloc env ((formatInt data.length 16).length + data.length + 4)).1.data,
    by simp [malloc], ?_, ?_⟩, ?_, ?_⟩
  · intro c hc
    simp only [malloc, mem_map] at hc
    obtain ⟨i, -, hi⟩ := hc
    exact ⟨i, hi.symm⟩
  · simp [out, setBuffer, hb, malloc, chunk]
  · simp [setBuffer, malloc]
  · simp [setBuffer]

theorem putChunk_none_large (h : ∀ n, env.connErr n = none) (hb : x.res.buffer = none)
    (hlarge : ¬ Small data) :
    let y := (x.putChunk env none data).2
    y.out = x.out ++ chunk data ∧ y.res = { x.res with buffer := y.res.buffer } ∧
      y.res.buffer = none := by
  unfold putChunk
  simp only [if_neg (show ¬ _ < maxPacketSize from hlarge)]
  generalize hm : x.malloc env _ = m
  generalize hr : m.2.reslice m.1 = r
  generalize ha : r.2.appends r.1 [formatInt data.length 16, crlf] = a
  have hres : a.2.res = x.res := by
    rw [← ha, ← hr, ← hm]
    rfl
  have hsent : a.2.sent = x.sent := by
    rw [← ha, ← hr, ← hm]
    rfl
  have hdata : a.1.data = formatInt data.length 16 ++ crlf := by
    rw [← ha, ← hr]
    simp [reslice]
  obtain ⟨hout, hres', hbuf⟩ := sendChunk_spec h (hres ▸ hb) data
  refine ⟨?_, ?_, ?_⟩
  · rw [hout, chunk_eq, hdata]
    simp [out, hsent, hres]
  · rw [hres', hres]
  · rw [hbuf, hdata]
    unfold Small at hlarge
    simp
    omega

theorem putChunk_some (h : ∀ n, env.connErr n = none) (hb : x.res.buffer = none) (data : Bytes) :
    let y := (x.putChunk env (some b) data).2
    y.out = x.out ++ b.data ++ chunk data ∧ y.res = { x.res with buffer := y.res.buffer } ∧
      (y.res.buffer = none ↔ maxPacketSize ≤ data.length + 2) := by
  unfold putChunk
  by_cases hlt : (formatInt data.length 16).length + data.length + 4 + b.data.length <
      maxPacketSize
  · simp only [if_pos hlt]
    refine ⟨?_, ?_, ?_⟩
    · simp [out, setBuffer, hb, chunk]
    · simp [setBuffer]
    · simp [setBuffer]
      omega
  · simp only [if_neg hlt]
    generalize ha : x.appends b [formatInt data.length 16, crlf] = a
    obtain ⟨herr, hsent', hres'⟩ := send_ok (x := a.2) (b := a.1) h
    simp only [herr]
    generalize hy : ((a.2.send env a.1).2.free a.1).reslice a.1 = y
    have hres : y.2.res = x.res := by
      have : (x.appends b [formatInt data.length 16, crlf]).2.res = x.res := appends_res _
      rw [← hy, ← this, ha]
      exact hres'
    have hsent : y.2.sent =
        x.sent ++ [b.data ++ formatInt data.length 16 ++ crlf] := by
      rw [← hy]
      refine Eq.trans hsent' ?_
      rw [← ha]
      simp
    have hdata : y.1.data = [] := by
      rw [← hy]
      rfl
    obtain ⟨hout, hres', hbuf⟩ := sendChunk_spec h (hres ▸ hb) data
    refine ⟨?_, ?_, ?_⟩
    · rw [hout, chunk_eq, hdata]
      simp [out, hsent, hres, hb]
    · rw [hres', hres]
    · rw [hbuf, hdata]
      simp

/-! ## The calls of a handler -/

theorem Streams.of_buffer (hx : Streams t x) (h : y.res = { x.res with buffer := y.res.buffer }) :
    Streams t y where
  conn := by rw [h]; exact hx.conn
  hijacked := by rw [h]; exact hx.hijacked
  chunkChecked := by rw [h]; exact hx.chunkChecked
  chunked := by rw [h]; exact hx.chunked
  headEncoded := by rw [h]; exact hx.headEncoded
  trailer := by rw [h]; exact hx.trailer
  bodyBuffer := by rw [h]; exact hx.bodyBuffer

theorem putChunk_cases (h : ∀ n, env.connErr n = none) (x : Exchange) (data : Bytes) :
    let y := ((x.setBuffer none).putChunk env x.res.buffer data).2
    y.res = { x.res with buffer := y.res.buffer } ∧
    (¬ (x.res.buffer = none ∧ Small data) → y.out = x.out ++ chunk data ∧
      (y.res.buffer = none ↔ maxPacketSize ≤ data.length + 2 ∨ x.res.buffer = none)) ∧
    (x.res.buffer = none ∧ Small data → ∃ garbage, garbage ≠ [] ∧
      (∀ c ∈ garbage, ∃ i j, c = env.contents i j) ∧ y.out = x.out ++ garbage ++ chunk data) := by
  have hnone : (x.setBuffer none).res.buffer = none := rfl
  cases hbuf : x.res.buffer with
  | none =>
    have hout : (x.setBuffer none).out = x.out := by simp [out, setBuffer, hbuf]
    by_cases hsmall : Small data
    · obtain ⟨⟨g, hlen, hg, hy⟩, hres, hne⟩ := putChunk_none_small env hnone hsmall
      refine ⟨hres, fun hno => absurd ⟨rfl, hsmall⟩ hno,
        fun _ => ⟨g, ?_, fun c hc => ?_, by rw [hy, hout]⟩⟩
      · rintro rfl
        simp at hlen
      · obtain ⟨i, hi⟩ := hg c hc
        exact ⟨_, i, hi⟩
    · obtain ⟨hy, hres, hne⟩ := putChunk_none_large h hnone hsmall
      refine ⟨hres, fun _ => ⟨by rw [hy, hout], ?_⟩, fun hno => absurd hno.2 hsmall⟩
      exact ⟨fun _ => .inr rfl, fun _ => hne⟩
  | some b =>
    have hout : (x.setBuffer none).out ++ b.data = x.out := by simp [out, setBuffer, hbuf]
    obtain ⟨hy, hres, hne⟩ := putChunk_some h hnone data
    refine ⟨hres, fun _ => ⟨by rw [hy, hout], ?_⟩, fun hno => absurd hno.1 nofun⟩
    rw [hne]
    simp

theorem putChunk_grows (h : ∀ n, env.connErr n = none) (x : Exchange) (data : Bytes) :
    let y := ((x.setBuffer none).putChunk env x.res.buffer data).2
    x.out <+: y.out ∧ (x.res.buffer ≠ none → y.out = x.out ++ chunk data) ∧
      y.res = { x.res with buffer := y.res.buffer } := by
  obtain ⟨hres, hgood, hbad⟩ := putChunk_cases h x data
  refine ⟨?_, fun hne => (hgood fun hno => hne hno.1).1, hres⟩
  by_cases hno : x.res.buffer = none ∧ Small data
  · obtain ⟨g, -, -, hout⟩ := hbad hno
    rw [append_assoc] at hout
    exact ⟨_, hout.symm⟩
  · exact ⟨_, (hgood hno).1.symm⟩

end Exchange

namespace Response

/-- The response once its status and its framing are decided. -/
def prepared (env : Env) (res : Response) : Response := (res.writeHeader env 200).checkChunked

theorem writeHeader_eq (env : Env) (res : Response) (n : Int) : ∃ st code hd,
    res.writeHeader env n = { res with status := st, statusCode := code, header := hd } := by
  unfold writeHeader
  simp only
  repeat' split
  all_goals exact ⟨_, _, _, rfl⟩

theorem writeHeader_framing (env : Env) (res : Response) (n : Int) :
    (res.writeHeader env n).chunkChecked = res.chunkChecked ∧
      (res.writeHeader env n).chunked = res.chunked := by
  obtain ⟨st, code, hd, h⟩ := res.writeHeader_eq env n
  rw [h]
  exact ⟨rfl, rfl⟩

theorem checkChunked_eq (res : Response) : ∃ c hd,
    res.checkChunked = { res with chunked := c, chunkChecked := true, header := hd } := by
  unfold checkChunked
  split
  · next h => exact ⟨res.chunked, res.header, by rw [← h]⟩
  · simp only
    repeat' split
    all_goals exact ⟨_, _, rfl⟩

theorem prepared_eq (env : Env) (res : Response) : ∃ st code hd c,
    res.prepared env = { res with
      status := st, statusCode := code, header := hd, chunked := c, chunkChecked := true } := by
  obtain ⟨st, code, hd, h⟩ := res.writeHeader_eq env 200
  obtain ⟨c, hd', h'⟩ := (res.writeHeader env 200).checkChunked_eq
  exact ⟨st, code, hd', c, by rw [prepared, h', h]⟩

theorem prepared_chunked (env : Env) (res : Response) (h : res.chunkChecked = true) :
    (res.prepared env).chunked = res.chunked := by
  obtain ⟨st, code, hd, hw⟩ := res.writeHeader_eq env 200
  rw [prepared, checkChunked, hw, if_pos h]

end Response

/-- A response that nothing has been written to, which is going to be chunked without
trailers. -/
structure Response.Fresh (env : Env) (res : Response) : Prop where
  conn : res.conn = true
  hijacked : res.hijacked = false
  headEncoded : res.headEncoded = false
  buffer : res.buffer = none
  bodyBuffer : res.bodyBuffer = none
  chunked : (res.prepared env).chunked = true
  trailers : (res.prepared env).header.lacks trailerHeader = true

namespace Exchange

variable {env : Env} {x : Exchange} {t : List (Bytes × Bytes)}

def opened (env : Env) (x : Exchange) (hasBody : Bool) : Exchange :=
  { x with res := { x.res.prepared env with hasBody := hasBody } }.eoncodeHead env

namespace Streams

theorem chunked_prepared (hx : Streams t x) (env : Env) : (x.res.prepared env).chunked = true := by
  rw [x.res.prepared_chunked env hx.chunkChecked]
  exact hx.chunked

theorem opened (hx : Streams t x) (env : Env) (b : Bool) :
    Streams t (x.opened env b) ∧ (x.opened env b).out = x.out ∧
      (x.opened env b).res.buffer = x.res.buffer := by
  have hc := hx.chunked_prepared env
  obtain ⟨st, code, h, c, hp⟩ := x.res.prepared_eq env
  have ho : x.opened env b = { x with res := { x.res.prepared env with hasBody := b } } := by
    rw [Exchange.opened, eoncodeHead, if_pos]
    rw [hp]
    exact hx.headEncoded
  rw [hp] at hc
  rw [ho, hp]
  exact ⟨⟨hx.conn, hx.hijacked, rfl, hc, hx.headEncoded, hx.trailer, hx.bodyBuffer⟩, rfl, rfl⟩

end Streams

theorem eoncodeHead_spec (env : Env) (h : x.res.headEncoded = false) :
    (x.eoncodeHead env).sent = x.sent ∧ (x.eoncodeHead env).res = { x.res with
      headEncoded := true, trailer := x.res.trailers
      buffer := some ⟨x.nextBuf, x.res.headBlock env⟩ } := by
  rw [eoncodeHead, h]
  exact ⟨rfl, rfl⟩

theorem opened_streams (hconn : x.res.conn = true) (hhij : x.res.hijacked = false)
    (hhead : x.res.headEncoded = false) (hbody : x.res.bodyBuffer = none)
    (hchunked : (x.res.prepared env).chunked = true) (b : Bool) :
    Streams (x.res.prepared env).trailers (x.opened env b) ∧
      (x.opened env b).out =
        x.sent.flatten ++ { x.res.prepared env with hasBody := b }.headBlock env ∧
      (x.opened env b).res.buffer ≠ none := by
  obtain ⟨st, code, hd, c, hp⟩ := x.res.prepared_eq env
  obtain ⟨hs, henc⟩ := eoncodeHead_spec env
    (x := { x with res := { x.res.prepared env with hasBody := b } })
    (by rw [hp]; exact hhead)
  rw [opened]
  refine ⟨?_, ?_, ?_⟩
  · constructor
    · rw [henc, hp]; exact hconn
    · rw [henc, hp]; exact hhij
    · rw [henc, hp]
    · rw [henc]; exact hchunked
    · rw [henc]
    · rw [henc]; rfl
    · rw [henc, hp]; exact hbody
  · rw [out, hs, henc]
    rfl
  · rw [henc]
    intro hnone
    cases hnone

theorem opened_fresh (hx : x.res.Fresh env) (b : Bool) :
    Streams [] (x.opened env b) ∧
      (x.opened env b).out =
        x.sent.flatten ++ { x.res.prepared env with hasBody := b }.headBlock env ∧
      (x.opened env b).res.buffer ≠ none := by
  obtain ⟨hstreams, hout, hbuf⟩ := opened_streams hx.conn hx.hijacked hx.headEncoded hx.bodyBuffer
    hx.chunked b
  have hl : ((x.res.prepared env).header.lookup trailerHeader).getD [] = [] := by
    simpa [Header.lacks] using hx.trailers
  have ht : (x.res.prepared env).trailers = [] := by
    simp [Response.trailers, Response.trailerNames, hl]
  rw [ht] at hstreams
  exact ⟨hstreams, hout, hbuf⟩

def Ready (env : Env) (x : Exchange) : Prop := Streams [] x ∨ x.res.Fresh env

theorem Ready.opened (hx : x.Ready env) (b : Bool) : Streams [] (x.opened env b) := by
  rcases hx with hx | hx
  · exact (hx.opened env b).1
  · exact (opened_fresh hx b).1

theorem Ready.conn (hx : x.Ready env) : x.res.conn = true := by
  rcases hx with hx | hx
  · exact hx.conn
  · exact hx.conn

theorem Ready.hijacked (hx : x.Ready env) : x.res.hijacked = false := by
  rcases hx with hx | hx
  · exact hx.hijacked
  · exact hx.hijacked

theorem Ready.chunked (hx : x.Ready env) : (x.res.prepared env).chunked = true := by
  rcases hx with hx | hx
  · exact hx.chunked_prepared env
  · exact hx.chunked

theorem write_chunked (hne : data ≠ []) (hconn : x.res.conn = true)
    (hchunked : (x.res.prepared env).chunked = true) :
    x.write env data = ((x.opened env true).setBuffer none).putChunk env
      (x.opened env true).res.buffer data := by
  have hcall : ¬ (data = [] ∨ x.res.conn = false) := by simp [hne, hconn]
  have hc : { x.res.prepared env with hasBody := true }.chunked = true := hchunked
  rw [write, if_neg hcall]
  exact if_pos hc

theorem Ready.write_eq (hx : x.Ready env) (hne : data ≠ []) :
    x.write env data = ((x.opened env true).setBuffer none).putChunk env
      (x.opened env true).res.buffer data :=
  write_chunked hne hx.conn hx.chunked

theorem prepared_self (x : Exchange) :
    { x.res.prepared env with hasBody := x.res.hasBody } = x.res.prepared env := by
  obtain ⟨st, code, hd, c, hp⟩ := x.res.prepared_eq env
  rw [hp]

section

variable (h : ∀ n, env.connErr n = none)

include h

theorem flushBuf_spec (b : Option Buf) :
    (x.flushBuf env b).2.res = x.res ∧
      (x.flushBuf env b).2.sent.flatten ++ bufData (x.flushBuf env b).1 =
        x.sent.flatten ++ bufData b ∧
      ((x.flushBuf env b).1 = none ↔ b = none) := by
  cases b with
  | none => exact ⟨rfl, rfl, Iff.rfl⟩
  | some b =>
    obtain ⟨herr, hsent, hres⟩ := send_ok (x := x) (b := b) h
    unfold flushBuf
    by_cases hlen : 0 < b.data.length
    · simp only [if_pos hlen, herr]
      refine ⟨hres, ?_, by simp⟩
      simp [reslice, hsent]
    · simp only [if_neg hlen]
      simp

theorem flushBufs_bodyless (hnone : x.res.bodyBuffer = none) :
    (x.flushBufs env).res = { x.res with buffer := (x.flushBufs env).res.buffer } ∧
      (x.flushBufs env).out = x.out ∧
      ((x.flushBufs env).res.buffer = none ↔ x.res.buffer = none) := by
  obtain ⟨hres, hout, hbuf⟩ := flushBuf_spec h x.res.buffer
  generalize hr : x.flushBuf env x.res.buffer = r at hres hout hbuf
  have hbody : (r.2.setBuffer r.1).res.bodyBuffer = none := by
    change r.2.res.bodyBuffer = none
    rw [hres]
    exact hnone
  have hy : x.flushBufs env = r.2.setBuffer r.1 := by
    have hkeep : flushBuf env (r.2.setBuffer r.1) none = (none, r.2.setBuffer r.1) := rfl
    unfold flushBufs
    simp only [hr, hbody, hkeep]
    rw [setBodyBuffer, ← hbody]
  rw [hy]
  refine ⟨?_, ?_, hbuf⟩
  · simp [setBuffer, hres]
  · simpa [out, setBuffer] using hout

theorem Streams.flushBufs (hx : Streams t x) :
    Streams t (x.flushBufs env) ∧ (x.flushBufs env).out = x.out ∧
      ((x.flushBufs env).res.buffer = none ↔ x.res.buffer = none) := by
  obtain ⟨hres, hout, hbuf⟩ := flushBufs_bodyless h hx.bodyBuffer
  exact ⟨hx.of_buffer hres, hout, hbuf⟩

theorem flushChunked_sends (x : Exchange) :
    (x.flushChunked env).2.sent.flatten =
      x.out ++ Response.lastChunk env x.res.trailer := by
  have hnil : env.rangeTrailer [] = [] := List.Perm.eq_nil (env.rangeTrailer_perm [])
  unfold flushChunked
  by_cases ht : x.res.trailer = []
  · have ht' : (x.setBuffer none).res.trailer = [] := ht
    simp only [if_pos ht']
    rw [ht, Response.lastChunk, Response.trailerSection, hnil]
    cases hb : x.res.buffer with
    | none => simp [send, connWrite, h, free, append, malloc, setBuffer, out, hb, ascii]
    | some b => simp [send, connWrite, h, free, append, setBuffer, out, hb, ascii]
  · have ht' : ¬ (x.setBuffer none).res.trailer = [] := ht
    simp only [if_neg ht']
    rw [Response.lastChunk, Response.trailerSection]
    cases hb : x.res.buffer with
    | none => simp [send, connWrite, h, free, append, malloc, reslice, setBuffer, out, hb]
    | some b => simp [send, connWrite, h, free, append, setBuffer, out, hb]

theorem write_streams (hconn : x.res.conn = true) (hchunked : (x.res.prepared env).chunked = true)
    (hx : Streams t (x.opened env true)) (hne : data ≠ []) :
    Streams t (x.write env data).2 ∧ (x.opened env true).out <+: (x.write env data).2.out ∧
      ((x.opened env true).res.buffer ≠ none →
        (x.write env data).2.out = (x.opened env true).out ++ chunk data) := by
  rw [write_chunked hne hconn hchunked]
  obtain ⟨hgrows, hchunk, hres⟩ := putChunk_grows h (x.opened env true) data
  exact ⟨hx.of_buffer hres, hgrows, hchunk⟩

section

variable (hconn : x.res.conn = true)
  (hhij : x.res.hijacked = false)
  (hx : Streams t (x.opened env x.res.hasBody))

include hconn hhij hx

theorem Flush_streams :
    Streams t (x.Flush env) ∧ (x.Flush env).out = (x.opened env x.res.hasBody).out ∧
      ((x.Flush env).res.buffer = none ↔ (x.opened env x.res.hasBody).res.buffer = none) := by
  have hno : ¬ (x.res.hijacked = true ∨ x.res.conn = false) := by simp [hconn, hhij]
  have heq : x.Flush env = (x.opened env x.res.hasBody).flushBufs env := by
    rw [Flush, if_neg hno, Exchange.opened, prepared_self]
    rfl
  rw [heq]
  exact hx.flushBufs h

theorem flushResponse_streams :
    (x.flushResponse env).2.sent.flatten =
      (x.opened env x.res.hasBody).out ++ Response.lastChunk env t := by
  have hno : ¬ (x.res.conn = false ∨ x.res.hijacked = true) := by simp [hconn, hhij]
  have heq : x.flushResponse env = (x.opened env x.res.hasBody).flushChunked env := by
    rw [flushResponse, if_neg hno]
    rw [Exchange.opened, prepared_self] at hx ⊢
    exact if_pos hx.chunked
  rw [heq, flushChunked_sends h, hx.trailer]

end

theorem Ready.flush_spec (hx : x.Ready env) :
    Streams [] (x.Flush env) ∧ (x.Flush env).out = (x.opened env x.res.hasBody).out ∧
      ((x.Flush env).res.buffer = none ↔ (x.opened env x.res.hasBody).res.buffer = none) :=
  Flush_streams h hx.conn hx.hijacked (hx.opened x.res.hasBody)

theorem Ready.flushResponse_spec (hx : x.Ready env) :
    (x.flushResponse env).2.sent.flatten =
      (x.opened env x.res.hasBody).out ++ ascii "0\r\n\r\n" := by
  have hnil : env.rangeTrailer [] = [] := List.Perm.eq_nil (env.rangeTrailer_perm [])
  rw [flushResponse_streams h hx.conn hx.hijacked (hx.opened x.res.hasBody), Response.lastChunk,
    Response.trailerSection, hnil]
  rfl

end

/-- How `y` follows `x` by a write of `data`. -/
structure Puts (env : Env) (x y : Exchange) (data : Bytes) : Prop where
  streams : Streams [] y
  chunk : ¬ (x.res.buffer = none ∧ Small data) → y.out = x.out ++ chunk data
  buffer : ¬ (x.res.buffer = none ∧ Small data) →
    (y.res.buffer = none ↔ 65534 ≤ data.length ∨ x.res.buffer = none)
  garbage : x.res.buffer = none ∧ Small data → ∃ garbage, garbage ≠ [] ∧
    (∀ c ∈ garbage, ∃ i j, c = env.contents i j) ∧ y.out = x.out ++ garbage ++ Http.chunk data

theorem Ready.write_spec (h : ∀ n, env.connErr n = none) (hx : x.Ready env) (hne : data ≠ []) :
    Puts env (x.opened env true) (x.write env data).2 data := by
  rw [hx.write_eq hne]
  obtain ⟨hres, hgood, hbad⟩ := putChunk_cases h (x.opened env true) data
  refine ⟨(hx.opened true).of_buffer hres, fun hno => (hgood hno).1,
    fun hno => ?_, hbad⟩
  rw [(hgood hno).2, maxPacketSize]
  exact or_congr_left (by omega)

theorem small_iff (data : Bytes) : Small data ↔ data.length < 65528 := by
  unfold Small maxPacketSize
  by_cases hlen : data.length ≤ 0x7FFFFFFF
  · have hs := formatInt_spec hlen
    generalize formatInt data.length 16 = ds at hs
    -- four digits are enough below 65536 and needed from 4096 on
    have hle : data.length < 65536 → ds.length ≤ 4 := by
      rcases hs.le with hone | hle
      · omega
      · by_contra hgt
        have := Nat.pow_le_pow_right (show 0 < 16 by decide) (show 4 ≤ ds.length - 1 by omega)
        omega
    have hge : 4096 ≤ data.length → 4 ≤ ds.length := by
      by_contra hgt
      have hlt := hs.lt
      have := Nat.pow_le_pow_right (show 0 < 16 by decide) (show ds.length ≤ 3 by omega)
      omega
    omega
  · omega

end Exchange

/-! ## Whole responses -/

/-- What a handler calls on its response. -/
inductive Op where
  | write (data : Bytes)
  | flush
deriving DecidableEq, Repr

def written : List Op → List Bytes
  | [] => []
  | .write data :: ops => data :: written ops
  | .flush :: ops => written ops

def firstWrites : List Op → Bool
  | [] => false
  | .write [] :: ops => firstWrites ops
  | .write (_ :: _) :: _ => true
  | .flush :: _ => false

def Exchange.call (env : Env) (x : Exchange) : Op → Exchange
  | .write data => (x.write env data).2
  | .flush => x.Flush env

def Response.exchange (res : Response) : Exchange :=
  { res := res, sent := [], connWrites := 0, nextBuf := 0, mempool := [] }

/-- The bytes sent by a handler's calls, and then by the server when the handler is done. -/
def Exchange.respond (env : Env) (x : Exchange) (ops : List Op) : Bytes :=
  ((ops.foldl (·.call env) x).flushResponse env).2.sent.flatten

def Response.head (env : Env) (res : Response) (ops : List Op) : Bytes :=
  { res.prepared env with hasBody := res.hasBody || firstWrites ops }.headBlock env

/-- The sequences of writes that can be read back when the buffer is nil at first or not:
each size can be formatted, and no data that is to wait in a buffer meets one that is nil. -/
structure FramedFrom (isNil : Prop) (ds : List Bytes) : Prop where
  sized : ∀ d ∈ ds, d.length ≤ 0x7FFFFFFF
  order : ds.Pairwise fun a b => 65534 ≤ a.length → b = [] ∨ 65528 ≤ b.length
  first : isNil → ∀ d ∈ ds, d = [] ∨ 65528 ≤ d.length

variable {isNil : Prop} {d : Bytes} {ds : List Bytes}

theorem framedFrom_nil : FramedFrom isNil [] := ⟨by simp, .nil, by simp⟩

theorem framedFrom_cons_nil : FramedFrom isNil ([] :: ds) ↔ FramedFrom isNil ds := by
  constructor
  · rintro ⟨hs, ho, hf⟩
    exact ⟨fun b hb => hs b (.tail _ hb), (pairwise_cons.1 ho).2,
      fun hn b hb => hf hn b (.tail _ hb)⟩
  · rintro ⟨hs, ho, hf⟩
    exact ⟨by simpa using hs, pairwise_cons.2 ⟨by simp, ho⟩, by simpa using hf⟩

theorem framedFrom_cons (hne : d ≠ []) : FramedFrom isNil (d :: ds) ↔
    d.length ≤ 0x7FFFFFFF ∧ ¬ (isNil ∧ Exchange.Small d) ∧
      FramedFrom (65534 ≤ d.length ∨ isNil) ds := by
  rw [Exchange.small_iff]
  constructor
  · rintro ⟨hs, ho, hf⟩
    obtain ⟨hd, ho⟩ := pairwise_cons.1 ho
    refine ⟨hs d (.head _), ?_, fun b hb => hs b (.tail _ hb), ho, ?_⟩
    · rintro ⟨hn, hsmall⟩
      have := (hf hn d (.head _)).resolve_left hne
      omega
    · rintro (hlong | hn) b hb
      · exact hd b hb hlong
      · exact hf hn b (.tail _ hb)
  · rintro ⟨hsize, hsmall, hs, ho, hf⟩
    refine ⟨by simpa using ⟨hsize, hs⟩,
      pairwise_cons.2 ⟨fun b hb hlong => hf (.inl hlong) b hb, ho⟩, fun hn b hb => ?_⟩
    rcases mem_cons.1 hb with rfl | hb
    · exact .inr (by
        by_contra hlt
        exact hsmall ⟨hn, by omega⟩)
    · exact hf (.inr hn) b hb

def chunks (ds : List Bytes) : Bytes := (ds.filter (! ·.isEmpty)).flatMap chunk

@[simp] theorem chunks_nil : chunks [] = [] := rfl

theorem chunks_cons (hne : d ≠ []) : chunks (d :: ds) = chunk d ++ chunks ds := by
  simp [chunks, hne]

namespace Exchange

variable {env : Env} {x y : Exchange} {ops : List Op}

/-- The exchange when the head has been encoded by the first of these calls that does it. -/
def front (env : Env) (x : Exchange) (ops : List Op) : Exchange :=
  x.opened env (x.res.hasBody || firstWrites ops)

theorem respond_cons (op : Op) : x.respond env (op :: ops) = (x.call env op).respond env ops :=
  rfl

theorem call_write_nil : x.call env (.write []) = x := by
  simp [call, write]

theorem front_write (hne : d ≠ []) : x.front env (.write d :: ops) = x.opened env true := by
  obtain ⟨c, cs, rfl⟩ := exists_cons_of_ne_nil hne
  rw [front, firstWrites, Bool.or_true]

theorem front_flush : x.front env (.flush :: ops) = x.opened env x.res.hasBody := by
  rw [front, firstWrites, Bool.or_false]

theorem Streams.front_out (hx : Streams t x) (env : Env) (ops : List Op) :
    (x.front env ops).out = x.out :=
  (hx.opened env _).2.1

theorem Streams.front_buffer (hx : Streams t x) (env : Env) (ops : List Op) :
    (x.front env ops).res.buffer = x.res.buffer :=
  (hx.opened env _).2.2

variable (h : ∀ n, env.connErr n = none)

include h

theorem Ready.respond_nil (hx : x.Ready env) :
    x.respond env [] = (x.front env []).out ++ ascii "0\r\n\r\n" := by
  rw [front, firstWrites, Bool.or_false]
  exact hx.flushResponse_spec h

theorem Ready.respond_grows (hx : x.Ready env) (ops : List Op) :
    ∃ rest, x.respond env ops = (x.front env ops).out ++ rest := by
  induction ops generalizing x with
  | nil => exact ⟨_, hx.respond_nil h⟩
  | cons op ops ih =>
    rw [respond_cons]
    cases op with
    | flush =>
      obtain ⟨hc, hout, -⟩ := hx.flush_spec h
      obtain ⟨rest, hrest⟩ := ih (.inl hc)
      refine ⟨rest, ?_⟩
      rw [front_flush, ← hout, ← hc.front_out]
      exact hrest
    | write data =>
      by_cases hne : data = []
      · subst hne
        exact ih hx
      · have hp := hx.write_spec h hne
        obtain ⟨rest, hrest⟩ := ih (.inl hp.streams)
        rw [hp.streams.front_out] at hrest
        rw [front_write hne]
        by_cases hbad : (x.opened env true).res.buffer = none ∧ Small data
        · obtain ⟨g, -, -, hout⟩ := hp.garbage hbad
          exact ⟨g ++ chunk data ++ rest, by simp [call, hrest, hout]⟩
        · exact ⟨chunk data ++ rest, by simp [call, hrest, hp.chunk hbad]⟩

theorem Ready.respond_framed (hx : x.Ready env)
    (hf : FramedFrom ((x.front env ops).res.buffer = none) (written ops)) :
    x.respond env ops =
      (x.front env ops).out ++ chunks (written ops) ++ ascii "0\r\n\r\n" := by
  induction ops generalizing x with
  | nil => simpa [written] using hx.respond_nil h
  | cons op ops ih =>
    rw [respond_cons]
    cases op with
    | flush =>
      obtain ⟨hc, hout, hbuf⟩ := hx.flush_spec h
      rw [front_flush] at hf ⊢
      rw [← hbuf, ← hc.front_buffer env ops] at hf
      rw [← hout, ← hc.front_out]
      exact ih (.inl hc) hf
    | write data =>
      by_cases hne : data = []
      · subst hne
        exact ih hx (framedFrom_cons_nil.1 hf)
      · have hp := hx.write_spec h hne
        rw [front_write hne, written, framedFrom_cons hne] at hf
        obtain ⟨-, hgood, hf⟩ := hf
        rw [← hp.buffer hgood, ← hp.streams.front_buffer env ops] at hf
        have hrest := ih (.inl hp.streams) hf
        rw [hp.streams.front_out, hp.chunk hgood] at hrest
        rw [front_write hne, written, chunks_cons hne]
        simpa [call] using hrest

/-- Where the writes are not framed, and the memory pool gives buffers full of CR, a CR stands
where a chunk should start. -/
theorem Ready.respond_unframed (hcr : ∀ i j, env.contents i j = CR) (hx : x.Ready env)
    (hf : ¬ FramedFrom ((x.front env ops).res.buffer = none) (written ops)) :
    ∃ (ds : List Bytes) (rest : Bytes), (∀ d ∈ ds, d ≠ [] ∧ d.length ≤ 0x7FFFFFFF) ∧
      x.respond env ops = (x.front env ops).out ++ ds.flatMap chunk ++ CR :: rest := by
  induction ops generalizing x with
  | nil => exact absurd framedFrom_nil hf
  | cons op ops ih =>
    rw [respond_cons]
    cases op with
    | flush =>
      obtain ⟨hc, hout, hbuf⟩ := hx.flush_spec h
      rw [front_flush] at hf ⊢
      rw [← hbuf, ← hc.front_buffer env ops] at hf
      rw [← hout, ← hc.front_out]
      exact ih (.inl hc) hf
    | write data =>
      by_cases hne : data = []
      · subst hne
        exact ih hx (fun hf' => hf (framedFrom_cons_nil.2 hf'))
      · have hp := hx.write_spec h hne
        obtain ⟨rest, hgrows⟩ := Ready.respond_grows h (.inl hp.streams) ops
        rw [hp.streams.front_out] at hgrows
        rw [front_write hne, written, framedFrom_cons hne] at hf
        rw [front_write hne]
        by_cases hbad : (x.opened env true).res.buffer = none ∧ Small data
        · -- the buffer starts with what the memory holds
          obtain ⟨g, hg, hmem, hout⟩ := hp.garbage hbad
          obtain ⟨c, cs, rfl⟩ := exists_cons_of_ne_nil hg
          obtain ⟨i, j, hc⟩ := hmem c (.head _)
          rw [hcr] at hc
          refine ⟨[], cs ++ chunk data ++ rest, by simp, ?_⟩
          simp [call, hgrows, hout, hc]
        · by_cases hlen : data.length ≤ 0x7FFFFFFF
          · have hf' : ¬ FramedFrom ((x.write env data).2.res.buffer = none) (written ops) := by
              rw [hp.buffer hbad]
              exact fun hf' => hf ⟨hlen, hbad, hf'⟩
            rw [← hp.streams.front_buffer env ops] at hf'
            obtain ⟨ds, rest', hds, heq⟩ := ih (.inl hp.streams) hf'
            rw [hp.streams.front_out, hp.chunk hbad] at heq
            refine ⟨data :: ds, rest', ?_, by simpa [call] using heq⟩
            rintro d (_ | ⟨_, hd⟩)
            · exact ⟨hne, hlen⟩
            · exact hds d hd
          · -- the size of the chunk is the empty string
            have hchunk : chunk data = CR :: LF :: (data ++ crlf) := by
              rw [chunk, formatInt, if_pos (by omega)]
              rfl
            refine ⟨[], LF :: (data ++ crlf) ++ rest, by simp, ?_⟩
            simp [call, hgrows, hp.chunk hbad, hchunk]

end Exchange

/-! ## Decoding what was sent -/

theorem length_le_length_flatMap_chunk (ds : List Bytes) :
    ds.length ≤ (ds.flatMap chunk).length := by
  induction ds with
  | nil => exact Nat.le_refl 0
  | cons d ds ih =>
    simp only [length_cons, flatMap_cons, length_append, chunk]
    omega

theorem chunkDecode_chunks (h : ∀ d ∈ ds, d.length ≤ 0x7FFFFFFF) :
    chunkDecode (chunks ds ++ ascii "0\r\n\r\n") = some ds.flatten := by
  have hflat : (ds.filter (! ·.isEmpty)).flatten = ds.flatten := by
    induction ds with
    | nil => rfl
    | cons d ds ih =>
      have ih := ih fun d' hd' => h d' (.tail _ hd')
      cases d <;> simp [ih]
  have hds : ∀ d ∈ ds.filter (! ·.isEmpty), d ≠ [] ∧ d.length ≤ 0x7FFFFFFF := by
    intro d hd
    obtain ⟨hmem, hne⟩ := mem_filter.1 hd
    exact ⟨by simpa using hne, h d hmem⟩
  rw [← hflat, chunkDecode, chunks]
  generalize ds.filter (! ·.isEmpty) = es at hds
  have hle := length_le_length_flatMap_chunk es
  obtain ⟨fuel, hfuel⟩ : ∃ fuel, (es.flatMap chunk ++ ascii "0\r\n\r\n").length + 1 =
      es.length + (fuel + 1) := ⟨_, by
    rw [length_append, ← Nat.add_assoc, Nat.add_right_cancel_iff]
    exact (Nat.add_sub_of_le (by omega)).symm⟩
  rw [hfuel, decodeChunks_chunks _ hds]
  have hlast : decodeChunks (fuel + 1) (ascii "0\r\n\r\n") = some [] := by
    rfl
  rw [hlast]
  simp

theorem decodeChunks_cr (fuel : Nat) (h : ∀ d ∈ ds, d ≠ [] ∧ d.length ≤ 0x7FFFFFFF)
    (rest : Bytes) : decodeChunks fuel (ds.flatMap chunk ++ CR :: rest) = none := by
  induction ds generalizing fuel with
  | nil =>
    cases fuel with
    | zero => rfl
    | succ fuel =>
      rw [flatMap_nil, nil_append, decodeChunks, readChunk_cr]
  | cons d ds ih =>
    cases fuel with
    | zero => rfl
    | succ fuel =>
      obtain ⟨hne, hlen⟩ := h d (.head _)
      rw [flatMap_cons, append_assoc, decodeChunks_chunk _ hne hlen,
        ih fuel fun d' hd' => h d' (.tail _ hd')]
      rfl

namespace Response

variable {env : Env} {res : Response} {ops : List Op}

theorem Fresh.contents (hres : res.Fresh env) (contents : Nat → Nat → UInt8) :
    res.Fresh { env with contents := contents } :=
  ⟨hres.conn, hres.hijacked, hres.headEncoded, hres.buffer, hres.bodyBuffer, hres.chunked,
    hres.trailers⟩

theorem Fresh.front_spec (hres : res.Fresh env) (ops : List Op) :
    (res.exchange.front env ops).out = res.head env ops ∧
      (res.exchange.front env ops).res.buffer ≠ none :=
  (Exchange.opened_fresh hres _).2

theorem Fresh.respond_undecodable (hres : res.Fresh env) (h : ∀ n, env.connErr n = none)
    (hcr : ∀ i j, env.contents i j = CR) (hf : ¬ FramedFrom False (written ops)) :
    ∃ body, res.exchange.respond env ops = res.head env ops ++ body ∧
      chunkDecode body = none := by
  obtain ⟨hhead, hbuf⟩ := hres.front_spec ops
  have hx : res.exchange.Ready env := .inr hres
  rw [← eq_false hbuf] at hf
  obtain ⟨ds, rest, hds, heq⟩ := hx.respond_unframed h hcr hf
  rw [hhead, append_assoc] at heq
  exact ⟨_, heq, decodeChunks_cr _ hds rest⟩

theorem Fresh.respond_decodes (hres : res.Fresh env) (h : ∀ n, env.connErr n = none)
    (hf : FramedFrom False (written ops)) :
    ∃ body, res.exchange.respond env ops = res.head env ops ++ body ∧
      chunkDecode body = some (written ops).flatten := by
  obtain ⟨hhead, hbuf⟩ := hres.front_spec ops
  have hx : res.exchange.Ready env := .inr hres
  have hsized := hf.sized
  rw [← eq_false hbuf] at hf
  have heq := hx.respond_framed h hf
  rw [hhead, append_assoc] at heq
  exact ⟨_, heq, chunkDecode_chunks hsized⟩

end Response

/-- Which sequences of writes can be read back from a chunked response, whatever the buffers of
the memory pool hold: those where no write is longer than `formatInt` can say, and where none
of fewer than 65528 bytes that is not empty comes after one of 65534 bytes or more. -/
theorem chunked_decodes_iff {env : Env} {res : Response} (hres : res.Fresh env)
    (h : ∀ n, env.connErr n = none) (ops : List Op) :
    (∀ contents, ∃ body,
      res.exchange.respond { env with contents := contents } ops = res.head env ops ++ body ∧
      chunkDecode body = some (written ops).flatten) ↔
    (∀ d ∈ written ops, d.length ≤ 0x7FFFFFFF) ∧
      (written ops).Pairwise fun a b => 65534 ≤ a.length → b = [] ∨ 65528 ≤ b.length := by
  constructor
  · intro hall
    by_contra hno
    have hf : ¬ FramedFrom False (written ops) := fun hf => hno ⟨hf.sized, hf.order⟩
    obtain ⟨body, heq, hnone⟩ :=
      (hres.contents fun _ _ => CR).respond_undecodable h (fun _ _ => rfl) hf
    obtain ⟨body', heq', hsome⟩ := hall fun _ _ => CR
    rw [heq] at heq'
    have hbody : body = body' := append_cancel_left heq'
    rw [← hbody, hnone] at hsome
    cases hsome
  · rintro ⟨hsized, horder⟩ contents
    exact (hres.contents contents).respond_decodes h ⟨hsized, horder, False.elim⟩

/-- A memory pool whose buffers are full of CR, and a connection that takes everything. -/
def crEnv : Env :=
  { contents := fun _ _ => CR, connErr := fun _ => none, statusText := fun _ => ascii "OK"
    date := [], rangeHeader := id, rangeTrailer := id, rangeHeader_perm := fun _ => .refl _
    rangeTrailer_perm := fun _ => .refl _ }

def plainResponse : Response :=
  newResponse { proto := ascii "HTTP/1.1", protoMajor := 1, protoMinor := 1, close := false }

theorem plainResponse_fresh : plainResponse.Fresh crEnv := by
  constructor <;> decide

theorem chunked_decodes_iff_small_writes :
    plainResponse.Fresh crEnv ∧ ∀ contents, ∃ body,
      plainResponse.exchange.respond { crEnv with contents := contents }
        [.write (ascii "ab"), .flush, .write (ascii "c")] =
          plainResponse.head crEnv [.write (ascii "ab"), .flush, .write (ascii "c")] ++ body ∧
      chunkDecode body = some (ascii "abc") :=
  ⟨plainResponse_fresh, (chunked_decodes_iff plainResponse_fresh (fun _ => rfl)
    [.write (ascii "ab"), .flush, .write (ascii "c")]).2 (by decide)⟩

/-- One byte written after 65534: the buffer made for it is sent with its old contents. -/
theorem large_then_small_write_undecodable :
    plainResponse.Fresh crEnv ∧ (∀ n, crEnv.connErr n = none) ∧
    ∃ body,
      plainResponse.exchange.respond crEnv
        [.write (replicate 65534 97), .write (ascii "a")] =
          plainResponse.head crEnv [.write (replicate 65534 97), .write (ascii "a")] ++
            body ∧
      chunkDecode body = none := by
  refine ⟨plainResponse_fresh, fun _ => rfl,
    plainResponse_fresh.respond_undecodable (fun _ => rfl) (fun _ _ => rfl) ?_⟩
  rintro ⟨-, horder, -⟩
  have h := (pairwise_cons.1 horder).1 (ascii "a") (.head _)
  rw [length_replicate] at h
  exact absurd (h (Nat.le_refl _)) (by decide)

end Nbio.Http
