import Nbio.Http.Chunked
import Nbio.Lib.Handle

/-!
# Who owns the buffers of a response

A response holds at most two buffers of the memory pool, in `buffer` and `bodyBuffer`; within a call
they pass through local variables, and on the way out of a call each of them has been put back or
freed.  The one exception is in `writeChunk`: a cached buffer to which a chunk does not fit is sent
and freed, and then used on for the data of the chunk (`overflows`).
-/

namespace Nbio.Http

open Nbio.Go Nbio.Lib List Option

def MemOp.bufOp : MemOp → BufOp
  | .malloc id _ => .new id
  | .append id => .grow id
  | .reslice id | .send id => .use id
  | .free id => .free id

def ids (b : Option Buf) : List Nat := (b.map Buf.id).toList

def Response.stored (res : Response) : List Nat := ids res.buffer ++ ids res.bodyBuffer

variable {res : Response}

namespace Exchange

def ops (x : Exchange) : List BufOp := x.mempool.map MemOp.bufOp

def Owns (x : Exchange) (bs : List Nat) : Prop := Holding x.ops x.nextBuf bs

def Kept (x : Exchange) : Prop := x.Owns x.res.stored

variable {env : Env} {x y : Exchange} {b c : Buf} {bs : List Nat}

/-! ## The operations -/

theorem ops_append (x : Exchange) (op : MemOp) :
    { x with mempool := x.mempool ++ [op] }.ops = x.ops ++ [op.bufOp] := by
  simp [ops]

theorem Owns.comm {bs' : List Nat} (h : x.Owns (bs ++ bs')) : x.Owns (bs' ++ bs) :=
  Holding.weaken h (by simp) (perm_append_comm.nodup_iff.1 h.nodup)

theorem malloc_cases (h : x.Owns bs) (env : Env) (size : Nat) :
    ∃ b y, x.malloc env size = (b, y) ∧ y.res = x.res ∧ y.Owns (b.id :: bs) := by
  refine ⟨_, _, rfl, rfl, ?_⟩
  unfold Owns
  rw [ops, map_append]
  exact Holding.new h

theorem Owns.use (h : x.Owns bs) {op : MemOp} (hb : b.id ∈ bs) (hop : op.bufOp = .use b.id) :
    { x with mempool := x.mempool ++ [op] }.Owns bs := by
  unfold Owns
  rw [ops_append, hop]
  exact Holding.use h hb

theorem reslice_cases (h : x.Owns bs) (hb : b.id ∈ bs) :
    ∃ c y, x.reslice b = (c, y) ∧ c.id = b.id ∧ y.res = x.res ∧ y.Owns bs :=
  ⟨_, _, rfl, rfl, rfl, h.use hb rfl⟩

theorem append_cases (h : x.Owns bs) (hb : b.id ∈ bs) (more : Bytes) :
    ∃ c y, x.append b more = (c, y) ∧ c.id = b.id ∧ y.res = x.res ∧ y.Owns bs ∧
      y.connWrites = x.connWrites := by
  refine ⟨_, _, rfl, rfl, rfl, ?_, rfl⟩
  unfold Owns
  rw [ops_append]
  exact Holding.grow h hb

theorem Owns.free (h : x.Owns (b.id :: bs)) : (x.free b).Owns bs := by
  unfold Owns Exchange.free
  rw [ops_append]
  exact Holding.free h

theorem connWrite_cases (env : Env) (x : Exchange) (data : Bytes) :
    ∃ r y, x.connWrite env data = (r, y) ∧ y.res = x.res ∧ y.mempool = x.mempool ∧
      y.nextBuf = x.nextBuf ∧ r.2.isNone = (env.connErr x.connWrites).isNone := by
  unfold connWrite
  cases env.connErr x.connWrites with
  | none => exact ⟨_, _, rfl, rfl, rfl, rfl, rfl⟩
  | some e => exact ⟨_, _, rfl, rfl, rfl, rfl, rfl⟩

theorem send_cases (env : Env) (h : x.Owns bs) (hb : b.id ∈ bs) :
    ∃ r y, x.send env b = (r, y) ∧ y.res = x.res ∧ y.Owns bs ∧
      r.2.isNone = (env.connErr x.connWrites).isNone := by
  have hsent : { x with mempool := x.mempool ++ [MemOp.send b.id] }.Owns bs := h.use hb rfl
  obtain ⟨r, y, heq, hres, hpool, hnext, herr⟩ :=
    connWrite_cases env { x with mempool := x.mempool ++ [MemOp.send b.id] } b.data
  refine ⟨r, y, heq, hres, ?_, herr⟩
  unfold Owns ops
  rw [hpool, hnext]
  exact hsent

theorem appends_cases (h : x.Owns bs) (hb : b.id ∈ bs) (more : List Bytes) :
    ∃ c y, x.appends b more = (c, y) ∧ c.id = b.id ∧ y.res = x.res ∧ y.Owns bs ∧
      y.connWrites = x.connWrites := by
  induction more generalizing x b with
  | nil => exact ⟨b, x, rfl, rfl, rfl, h, rfl⟩
  | cons more rest ih =>
    obtain ⟨c, y, heq, hid, hres, howns, hcount⟩ := append_cases h hb more
    obtain ⟨d, z, heq', hid', hres', howns', hcount'⟩ := ih howns (hid ▸ hb)
    refine ⟨d, z, ?_, hid'.trans hid, hres'.trans hres, howns', hcount'.trans hcount⟩
    rw [appends, heq]
    exact heq'

/-! ## What a response holds -/

theorem Kept.setRes (h : x.Kept) (hbuf : res.buffer = x.res.buffer)
    (hbody : res.bodyBuffer = x.res.bodyBuffer) : { x with res := res }.Kept := by
  unfold Kept Response.stored
  rw [hbuf, hbody]
  exact h

theorem kept_setBuffer {b : Option Buf} (h : x.Owns (ids b ++ ids x.res.bodyBuffer)) :
    (x.setBuffer b).Kept := h

theorem kept_setBodyBuffer {b : Option Buf} (h : x.Owns (ids b ++ ids x.res.buffer)) :
    (x.setBodyBuffer b).Kept := h.comm

theorem Kept.buffer (h : x.Kept) (hb : x.res.buffer = some b) :
    x.Owns (b.id :: ids x.res.bodyBuffer) := by
  unfold Kept Response.stored at h
  rw [hb] at h
  exact h

theorem Kept.bodyBuffer (h : x.Kept) (hb : x.res.bodyBuffer = some b) :
    x.Owns (b.id :: ids x.res.buffer) := by
  have hcomm := Owns.comm h
  rw [hb] at hcomm
  exact hcomm

theorem Owns.right {bs' : List Nat} (h : x.Owns (bs ++ bs')) : x.Owns bs' :=
  Holding.sublist h (sublist_append_right bs bs')

theorem kept_setBuffer_of_stored (h : x.Owns (b.id :: x.res.stored)) :
    (x.setBuffer (some b)).Kept :=
  kept_setBuffer (Holding.sublist h (List.Sublist.cons_cons _ (sublist_append_right _ _)))

theorem connWrite_kept (h : x.Kept) (env : Env) (data : Bytes) : (x.connWrite env data).2.Kept := by
  obtain ⟨r, y, heq, hres, hpool, hnext, -⟩ := connWrite_cases env x data
  rw [heq]
  unfold Kept Owns ops
  rw [hres, hpool, hnext]
  exact h

theorem send_free (h : x.Owns (b.id :: bs)) (env : Env) :
    ∃ r y, x.send env b = (r, y) ∧ y.res = x.res ∧ (y.free b).Owns bs ∧
      r.2.isNone = (env.connErr x.connWrites).isNone := by
  obtain ⟨r, y, heq, hres, howns, herr⟩ := send_cases env h mem_cons_self
  exact ⟨r, y, heq, hres, howns.free, herr⟩

/-- A buffer in a local variable, next to those that the response holds. -/
def HoldsLocal (p : Buf × Exchange) : Prop := p.2.Owns (p.1.id :: p.2.res.stored)

namespace HoldsLocal

variable {p : Buf × Exchange}

theorem malloc (h : x.Kept) (env : Env) (size : Nat) : HoldsLocal (x.malloc env size) := by
  obtain ⟨b, y, heq, hres, howns⟩ := malloc_cases h env size
  rw [heq]
  rw [← hres] at howns
  exact howns

theorem reslice (h : HoldsLocal p) : HoldsLocal (p.2.reslice p.1) := by
  obtain ⟨c, y, heq, hid, hres, howns⟩ := reslice_cases h mem_cons_self
  rw [heq]
  rw [← hid, ← hres] at howns
  exact howns

theorem appends (h : HoldsLocal p) (more : List Bytes) : HoldsLocal (p.2.appends p.1 more) := by
  obtain ⟨c, y, heq, hid, hres, howns, -⟩ := appends_cases h mem_cons_self more
  rw [heq]
  rw [← hid, ← hres] at howns
  exact howns

theorem append (h : HoldsLocal p) (more : Bytes) : HoldsLocal (p.2.append p.1 more) :=
  h.appends [more]

theorem send (h : HoldsLocal p) (env : Env) : ((p.2.send env p.1).2.free p.1).Kept := by
  obtain ⟨r, y, heq, hres, hfreed, -⟩ := send_free h env
  rw [heq]
  rw [← hres] at hfreed
  exact hfreed

end HoldsLocal

theorem Kept.taken (h : x.Kept) (hb : x.res.buffer = some b) :
    HoldsLocal (b, x.setBuffer none) := h.buffer hb

theorem eoncodeHead_kept (h : x.Kept) (env : Env) : (x.eoncodeHead env).Kept := by
  unfold eoncodeHead
  split
  · exact h
  · have hhead := (HoldsLocal.malloc h env 1024).reslice.append (x.res.headBlock env)
    exact (kept_setBuffer_of_stored hhead).setRes rfl rfl

theorem prepared_kept (h : x.Kept) (env : Env) (hasBody : Bool) :
    { x with res := { x.res.prepared env with hasBody := hasBody } }.Kept := by
  obtain ⟨st, code, hd, c, hp⟩ := x.res.prepared_eq env
  rw [hp]
  exact h.setRes rfl rfl

theorem opened_kept (h : x.Kept) (env : Env) (hasBody : Bool) : (x.opened env hasBody).Kept :=
  eoncodeHead_kept (prepared_kept h env hasBody) env

/-! ## Chunks -/

theorem sendChunk_kept (h : HoldsLocal (b, x)) (env : Env) (data : Bytes) :
    (x.sendChunk env b data).2.Kept := by
  have happend := h.appends [data, crlf]
  unfold sendChunk
  dsimp only
  split
  · exact kept_setBuffer_of_stored happend
  · have hsent := happend.send env
    split
    · exact hsent
    · exact hsent

/-- The room that the chunk of `data` needs behind a buffer of this length. -/
def chunkSize (data : Bytes) (cached : Nat) : Nat :=
  (Response.formatInt data.length 16).length + data.length + 4 + cached

theorem putChunk_none_kept (h : x.Kept) (env : Env) (data : Bytes) :
    (x.putChunk env none data).2.Kept := by
  have hnew := HoldsLocal.malloc h env
    ((Response.formatInt data.length 16).length + data.length + 4)
  unfold putChunk
  dsimp only
  split
  · exact kept_setBuffer_of_stored (hnew.appends _)
  · exact sendChunk_kept (hnew.reslice.appends _) env data

theorem putChunk_some_kept (h : HoldsLocal (b, x)) {data : Bytes}
    (hfits : chunkSize data b.data.length < maxPacketSize ∨ env.connErr x.connWrites ≠ none) :
    (x.putChunk env (some b) data).2.Kept := by
  unfold putChunk
  dsimp only
  split
  · exact kept_setBuffer_of_stored (h.appends _)
  · next hlong =>
    have herr := hfits.resolve_left hlong
    obtain ⟨c, y, heq, hid, hres, howns, hcount⟩ :=
      appends_cases h mem_cons_self [Response.formatInt data.length 16, crlf]
    rw [heq]
    rw [← hid, ← hres] at howns
    obtain ⟨r, z, heq, hres, hfreed, hnone⟩ := send_free howns env
    rw [heq]
    rw [← hres] at hfreed
    rw [hcount] at hnone
    split
    · exact hfreed
    · next hr =>
      rw [hr] at hnone
      exact absurd (isNone_iff_eq_none.1 hnone.symm) herr

/-! ## Bodies that are not chunked -/

theorem cacheBody_kept (h : x.Owns (b.id :: ids x.res.buffer)) (env : Env) (cl : Int)
    (data : Bytes) : (x.cacheBody env cl b data).2.Kept := by
  have hadd : (x.addWritten data.length).Owns (b.id :: ids (x.addWritten data.length).res.buffer) :=
    h
  unfold cacheBody
  obtain ⟨c, y, heq, hid, hres, howns, -⟩ := append_cases hadd mem_cons_self data
  rw [heq]
  dsimp only
  rw [← hid, ← hres] at howns
  split
  · obtain ⟨r, z, heq, hres, howns, -⟩ := send_cases env howns mem_cons_self
    rw [heq]
    rw [← hres] at howns
    split
    · exact kept_setBodyBuffer howns.free
    · obtain ⟨d, w, heq, hid, hres, howns⟩ := reslice_cases howns mem_cons_self
      rw [heq]
      rw [← hid, ← hres] at howns
      exact kept_setBodyBuffer howns
  · exact kept_setBodyBuffer howns

theorem appendBody_kept (h : x.Kept) (env : Env) (cl : Int) (data : Bytes) :
    (x.appendBody env cl data).2.Kept := by
  unfold appendBody
  split
  · next hnone =>
    split
    · refine connWrite_kept ?_ env data
      exact h.setRes rfl rfl
    · obtain ⟨b, y, heq, hres, howns⟩ := malloc_cases (Owns.comm h).right env data.length
      rw [heq]
      dsimp only
      rw [← hres] at howns
      obtain ⟨c, z, heq, hid, hres, howns⟩ := reslice_cases howns mem_cons_self
      rw [heq]
      rw [← hid, ← hres] at howns
      exact cacheBody_kept howns env cl data
  · next b hsome =>
    have hbody := h.bodyBuffer hsome
    split
    · -- what is cached goes out first
      by_cases hlen : 0 < b.data.length
      · simp only [hlen, ↓reduceIte]
        obtain ⟨r, y, heq, hres, howns, -⟩ := send_cases env hbody mem_cons_self
        rw [heq]
        rw [← hres] at howns
        obtain ⟨c, z, heq, hid, hres, howns⟩ := reslice_cases howns mem_cons_self
        rw [heq]
        rw [← hid, ← hres] at howns
        cases r.2 with
        | some e => exact kept_setBodyBuffer howns.free
        | none =>
          dsimp only
          split
          · refine connWrite_kept (kept_setBodyBuffer ?_) env data
            exact Owns.free howns
          · exact cacheBody_kept howns env cl data
      · simp only [hlen, ↓reduceIte]
        split
        · refine connWrite_kept (kept_setBodyBuffer ?_) env data
          exact Owns.free hbody
        · exact cacheBody_kept hbody env cl data
    · exact cacheBody_kept hbody env cl data

end Exchange

theorem Response.contentLength_eq (res : Response) :
    ∃ r n, res.contentLength = (r, { res with contentLen := n }) := by
  unfold Response.contentLength
  dsimp only
  repeat' split
  all_goals exact ⟨_, _, rfl⟩

namespace Exchange

variable {env : Env} {x y : Exchange} {b c : Buf} {bs : List Nat}

/-! ## The calls of a handler -/

/-- The length of what waits in the buffer when `Write` comes to its data. -/
def waiting (env : Env) (x : Exchange) : Option Nat :=
  if x.res.headEncoded then x.res.buffer.map fun b => b.data.length
  else some ({ x.res.prepared env with hasBody := true }.headBlock env).length

/-- Whether `Write` has to make room for the chunk of `data` and the connection takes what is
cached. -/
def overflows (env : Env) (x : Exchange) (data : Bytes) : Bool :=
  data ≠ [] && x.res.conn && (x.res.prepared env).chunked &&
    (x.waiting env).any (fun n => maxPacketSize ≤ chunkSize data n) &&
    (env.connErr x.connWrites).isNone

theorem opened_waiting (env : Env) (x : Exchange) :
    (x.opened env true).res.buffer.map (fun b => b.data.length) = x.waiting env := by
  obtain ⟨st, code, hd, c, hp⟩ := x.res.prepared_eq env
  unfold opened waiting eoncodeHead
  rw [hp]
  split
  · rfl
  · rfl

theorem opened_connWrites (env : Env) (x : Exchange) (hasBody : Bool) :
    (x.opened env hasBody).connWrites = x.connWrites := by
  unfold opened eoncodeHead
  split
  · rfl
  · rfl

theorem write_plain_kept (h : x.Kept) {data : Bytes} (hcall : ¬ (data = [] ∨ x.res.conn = false))
    (hchunked : (x.res.prepared env).chunked = false) : (x.write env data).2.Kept := by
  have hc : ¬ { x.res.prepared env with hasBody := true }.chunked = true := by simp [hchunked]
  have hprep := prepared_kept h env true
  rw [write, if_neg hcall]
  erw [if_neg hc]
  obtain ⟨r, n, heq⟩ :=
    Response.contentLength_eq { (x.res.writeHeader env 200).checkChunked with hasBody := true }
  rw [heq]
  have hset : { x with
      res := { x.res.prepared env with hasBody := true, contentLen := n } }.Kept :=
    hprep.setRes rfl rfl
  cases r with
  | error e => exact hset
  | ok cl =>
    dsimp only
    split
    · exact hset
    · split
      · have hhead := eoncodeHead_kept hset env
        split
        · exact appendBody_kept (kept_setBuffer (b := none) (Owns.right hhead)) env cl data
        · next b hb =>
          have howns := hhead.buffer hb
          split
          · refine appendBody_kept (kept_setBodyBuffer ?_) env cl data
            exact Holding.sublist howns (List.Sublist.cons_cons _ (nil_sublist _))
          · obtain ⟨w, y, heq, hres, hfreed, -⟩ := send_free (hhead.taken hb) env
            rw [← hres] at hfreed
            simp only [Response.prepared] at heq
            rw [heq]
            split
            · exact hfreed
            · exact appendBody_kept hfreed env cl data
      · exact appendBody_kept hset env cl data

theorem write_kept (h : x.Kept) {data : Bytes} (hfits : x.overflows env data = false) :
    (x.write env data).2.Kept := by
  by_cases hcall : data = [] ∨ x.res.conn = false
  · rw [write, if_pos hcall]
    exact h
  · have hne : data ≠ [] := fun heq => hcall (.inl heq)
    have hconn : x.res.conn = true := by simpa using fun hf => hcall (.inr hf)
    cases hchunked : (x.res.prepared env).chunked with
    | true =>
      rw [write_chunked hne hconn hchunked]
      have hopened := opened_kept h env true
      cases hb : (x.opened env true).res.buffer with
      | none => exact putChunk_none_kept (kept_setBuffer (b := none) (Owns.right hopened)) env data
      | some b =>
        refine putChunk_some_kept (hopened.taken hb) ?_
        have hwait := opened_waiting env x
        rw [hb, map_some] at hwait
        simp only [overflows, hne, hconn, hchunked, ← hwait, ne_eq, not_false_eq_true, decide_true,
          Bool.true_and, Option.any_some, Bool.and_eq_false_iff,
          decide_eq_false_iff_not, not_le] at hfits
        refine hfits.imp id ?_
        intro hsome hnone
        have hcount : ((x.opened env true).setBuffer none).connWrites = x.connWrites :=
          opened_connWrites env x true
        rw [hcount] at hnone
        rw [hnone] at hsome
        cases hsome
    | false => exact write_plain_kept h hcall hchunked

theorem flushBuf_cases (env : Env) {b : Option Buf} (h : x.Owns (ids b ++ bs)) :
    ∃ c y, x.flushBuf env b = (c, y) ∧ y.res = x.res ∧ y.Owns (ids c ++ bs) := by
  unfold flushBuf
  split
  · exact ⟨_, _, rfl, rfl, h⟩
  · next b =>
    split
    · obtain ⟨r, y, heq, hres, howns, -⟩ := send_cases env h mem_cons_self
      rw [heq]
      dsimp only
      split
      · exact ⟨_, _, rfl, hres, howns.free⟩
      · obtain ⟨c, z, heq, hid, hres', howns⟩ := reslice_cases howns mem_cons_self
        have hcut : z.Owns (c.id :: bs) := by
          rw [hid]
          exact howns
        rw [heq]
        exact ⟨_, _, rfl, hres'.trans hres, hcut⟩
    · exact ⟨_, _, rfl, rfl, h⟩

theorem flushBufs_kept (h : x.Kept) (env : Env) : (x.flushBufs env).Kept := by
  unfold flushBufs
  obtain ⟨b, y, heq, hres, howns⟩ := flushBuf_cases env h
  rw [heq]
  dsimp only
  rw [← hres] at howns
  have hbuf : (y.setBuffer b).Kept := kept_setBuffer howns
  obtain ⟨c, z, heq, hres, howns⟩ := flushBuf_cases env (Owns.comm hbuf)
  rw [heq]
  rw [← hres] at howns
  exact kept_setBodyBuffer howns

theorem prepare_kept (h : x.Kept) (env : Env) : { x with res := x.res.prepared env }.Kept := by
  obtain ⟨st, code, hd, c, hp⟩ := x.res.prepared_eq env
  rw [hp]
  exact h.setRes rfl rfl

theorem Flush_kept (h : x.Kept) (env : Env) : (x.Flush env).Kept := by
  unfold Flush
  split
  · exact h
  · exact flushBufs_kept (eoncodeHead_kept (prepare_kept h env) env) env

theorem copy_kept (h : x.Kept) (env : Env) (pieces : List Bytes) : (x.copy env pieces).2.Kept := by
  induction pieces generalizing x with
  | nil => exact h
  | cons piece pieces ih =>
    have hwrite := connWrite_kept h env piece
    unfold copy
    dsimp only
    split
    · exact hwrite
    · exact ih hwrite

theorem readFrom_kept (h : x.Kept) (env : Env) (src : Source) : (x.readFrom env src).2.Kept := by
  unfold readFrom
  split
  · exact h
  · dsimp only
    have hset : { x with res := { x.res with hasBody := true } }.Kept := h.setRes rfl rfl
    have hhead := eoncodeHead_kept hset env
    split
    · exact hhead
    · next b hb =>
      obtain ⟨r, y, heq, hres, hfreed, -⟩ := send_free (hhead.buffer hb) env
      rw [heq]
      rw [← hres] at hfreed
      have hkept : ((y.free b).setBuffer none).Kept := kept_setBuffer hfreed
      repeat' split
      · exact hkept
      · exact hkept
      · exact hkept
      · exact copy_kept hkept env src.pieces

/-! ## The end of a response -/

theorem flushBody_kept (h : x.Kept) (env : Env) : (x.flushBody env).2.Kept := by
  unfold flushBody
  split
  · exact h
  · next body hbody =>
    split
    · obtain ⟨r, y, heq, hres, hfreed, -⟩ := send_free (h.bodyBuffer hbody) env
      rw [heq]
      rw [← hres] at hfreed
      exact kept_setBodyBuffer hfreed
    · exact h

theorem flushHead_kept (h : x.Owns (b.id :: ids x.res.bodyBuffer)) (env : Env) :
    (x.flushHead env b).2.Kept := by
  unfold flushHead
  obtain ⟨r, y, heq, hres, hfreed, -⟩ := send_free h env
  rw [heq]
  dsimp only
  rw [← hres] at hfreed
  have hkept : ((y.free b).setBuffer none).Kept := kept_setBuffer hfreed
  split
  · exact hkept
  · exact flushBody_kept hkept env

theorem flushPlain_kept (h : x.Kept) (env : Env) : (x.flushPlain env).2.Kept := by
  unfold flushPlain
  split
  · exact flushBody_kept h env
  · next b hb =>
    have howns := h.buffer hb
    split
    · next body hbody =>
      rw [hbody] at howns
      have hboth : x.Owns [b.id, body.id] := howns
      split
      · split
        · obtain ⟨r, y, heq, hres, hfreed, -⟩ := send_free hboth env
          rw [heq]
          dsimp only
          split
          · exact kept_setBodyBuffer (Owns.free hfreed)
          · exact flushHead_kept hfreed env
        · obtain ⟨c, y, heq, hid, hres, howns, -⟩ :=
            append_cases hboth mem_cons_self body.data
          rw [heq]
          rw [← hid] at howns
          have hswap : y.Owns ([body.id] ++ [c.id]) := Owns.comm howns
          have hfreed : (y.free body).Owns [c.id] := Owns.free hswap
          exact flushHead_kept hfreed env
      · exact flushHead_kept (h.buffer hb) env
    · exact flushHead_kept (h.buffer hb) env

theorem flushChunked_kept (h : x.Kept) (env : Env) : (x.flushChunked env).2.Kept := by
  have htaken : (x.setBuffer none).Owns (ids x.res.buffer ++ (x.setBuffer none).res.stored) := h
  unfold flushChunked
  generalize x.setBuffer none = y at htaken
  generalize x.res.buffer = pdata at htaken
  by_cases ht : y.res.trailer = []
  · simp only [ht]
    cases pdata with
    | some b =>
      have hlocal : HoldsLocal (b, y) := htaken
      exact (hlocal.append _).send env
    | none => exact ((HoldsLocal.malloc htaken env 0).append _).send env
  · simp only [ht]
    cases pdata with
    | some b =>
      have hlocal : HoldsLocal (b, y) := htaken
      exact (((hlocal.append _).appends _).append _).send env
    | none =>
      have hlocal := (HoldsLocal.malloc htaken env 512).reslice
      exact (((hlocal.append _).appends _).append _).send env

theorem flush_kept (h : x.Kept) (env : Env) : (x.flush env).2.Kept := by
  unfold flush
  split
  · exact flushChunked_kept h env
  · exact flushPlain_kept h env

theorem flushResponse_kept (h : x.Kept) (env : Env) : (x.flushResponse env).2.Kept := by
  unfold flushResponse
  split
  · exact h
  · exact flush_kept (eoncodeHead_kept (prepare_kept h env) env) env

theorem releaseResponse_kept (h : x.Kept) : x.releaseResponse.Kept := by
  unfold Kept Response.stored at h
  unfold releaseResponse
  dsimp only
  cases hbuf : x.res.buffer with
  | none =>
    rw [hbuf] at h
    cases hbody : x.res.bodyBuffer with
    | none =>
      rw [hbody] at h
      exact h
    | some body =>
      rw [hbody] at h
      have hfreed : (x.free body).Owns [] := Owns.free h
      exact hfreed
  | some b =>
    rw [hbuf] at h
    have hfreed : (x.free b).Owns (ids (x.free b).res.bodyBuffer) := Owns.free h
    cases hbody : (x.free b).res.bodyBuffer with
    | none =>
      rw [hbody] at hfreed
      exact hfreed
    | some body =>
      rw [hbody] at hfreed
      have hboth : ((x.free b).free body).Owns [] := Owns.free hfreed
      exact hboth

theorem finishResponse_kept (h : x.Kept) (env : Env) : (x.finishResponse env).Kept := by
  unfold finishResponse
  split
  · exact h
  · exact releaseResponse_kept (flushResponse_kept h env)

/-! ## A chunk that does not fit -/

theorem appends_grows (x : Exchange) (b : Buf) (more : List Bytes) :
    x.mempool <+: (x.appends b more).2.mempool := by
  induction more generalizing x b with
  | nil => exact prefix_refl _
  | cons more rest ih =>
    exact (prefix_append x.mempool [MemOp.append b.id]).trans
      (ih (x.append b more).2 (x.append b more).1)

theorem send_grows (env : Env) (x : Exchange) (b : Buf) :
    x.mempool <+: (x.send env b).2.mempool := by
  obtain ⟨r, y, heq, -, hpool, -, -⟩ :=
    connWrite_cases env { x with mempool := x.mempool ++ [MemOp.send b.id] } b.data
  rw [send, heq]
  rw [hpool]
  exact prefix_append x.mempool _

theorem sendChunk_grows (env : Env) (x : Exchange) (b : Buf) (data : Bytes) :
    x.mempool <+: (x.sendChunk env b data).2.mempool := by
  have happend := appends_grows x b [data, crlf]
  unfold sendChunk
  dsimp only
  split
  · exact happend
  · have hsent := happend.trans (send_grows env (x.appends b [data, crlf]).2
      (x.appends b [data, crlf]).1)
    have hfreed := hsent.trans (prefix_append _ [MemOp.free (x.appends b [data, crlf]).1.id])
    split
    · exact hfreed
    · exact hfreed

/-- On a pool that moves some of the buffers that are appended to, nothing has been done to a
buffer after it was freed, and the response holds none that was freed. -/
def Clean (moves : Nat → Bool) (x : Exchange) : Prop :=
  Sound (moved moves x.ops).trace ∧
    ∀ b ∈ x.res.stored, .free ((moved moves x.ops).place b) ∉ (moved moves x.ops).trace

theorem Kept.clean (h : x.Kept) (moves : Nat → Bool) : x.Clean moves := by
  have htracks := moved_tracks moves h.fresh h.sound
  refine ⟨htracks.sound, ?_⟩
  intro b hb hfree
  exact h.live b hb ((htracks.freed_iff b (h.known b hb)).1 hfree)

def Reuses (x : Exchange) : Prop :=
  ∃ before c after, x.mempool = before ++ MemOp.free c :: MemOp.reslice c :: after ∧
    Fresh ((before ++ [MemOp.free c]).map MemOp.bufOp)

theorem Reuses.not_clean (h : x.Reuses) (moves : Nat → Bool) : ¬ x.Clean moves := by
  obtain ⟨before, c, after, hpool, hfresh⟩ := h
  have hops : x.ops = (before ++ [MemOp.free c]).map MemOp.bufOp ++
      .use c :: after.map MemOp.bufOp := by
    simp [ops, hpool, MemOp.bufOp]
  have hfree : .free c ∈ (before ++ [MemOp.free c]).map MemOp.bufOp := by
    simp [MemOp.bufOp]
  rintro ⟨hsound, -⟩
  rw [hops] at hsound
  exact moved_not_sound hfresh hfree rfl _ hsound

theorem putChunk_reuses (h : HoldsLocal (b, x)) {data : Bytes}
    (hlong : maxPacketSize ≤ chunkSize data b.data.length) (hok : env.connErr x.connWrites = none) :
    (x.putChunk env (some b) data).2.Reuses := by
  have hlen : ¬ (Response.formatInt data.length 16).length + data.length + 4 + b.data.length <
      maxPacketSize := Nat.not_lt.2 hlong
  unfold putChunk
  dsimp only
  rw [if_neg hlen]
  obtain ⟨c, y, heq, hid, hres, howns, hcount⟩ :=
    appends_cases h mem_cons_self [Response.formatInt data.length 16, crlf]
  rw [heq]
  rw [← hid] at howns
  obtain ⟨r, z, heq, hres, hfreed, hnone⟩ := send_free howns env
  rw [hcount, hok] at hnone
  rw [heq, isNone_iff_eq_none.1 hnone]
  obtain ⟨after, hafter⟩ :=
    sendChunk_grows env ((z.free c).reslice c).2 ((z.free c).reslice c).1 data
  refine ⟨z.mempool, c.id, after, ?_, hfreed.fresh⟩
  rw [← hafter]
  simp [Exchange.reslice, Exchange.free]

theorem write_reuses (h : x.Kept) {data : Bytes} (hover : x.overflows env data = true) :
    (x.write env data).2.Reuses := by
  simp only [overflows, Bool.and_eq_true, decide_eq_true_eq, isNone_iff_eq_none] at hover
  obtain ⟨⟨⟨⟨hne, hconn⟩, hchunked⟩, hlong⟩, hok⟩ := hover
  rw [write_chunked hne hconn hchunked]
  have hopened := opened_kept h env true
  have hwait := opened_waiting env x
  cases hb : (x.opened env true).res.buffer with
  | none =>
    rw [hb] at hwait
    rw [← hwait] at hlong
    cases hlong
  | some b =>
    rw [hb] at hwait
    rw [← hwait] at hlong
    have hcount := opened_connWrites env x true
    rw [← hcount] at hok
    exact putChunk_reuses (hopened.taken hb) (by simpa using hlong) hok

end Exchange

/-! ## Whole responses -/

/-- What a handler does with its response. -/
inductive HandlerCall where
  | write (data : Bytes)
  | flush
  | readFrom (r : Exchange.Source)
  | setHeader (header : Header)
  | writeHeader (statusCode : Int)
  | hijack
deriving DecidableEq, Repr

namespace Exchange

variable {env : Env} {x : Exchange}

def perform (env : Env) (x : Exchange) : HandlerCall → Exchange
  | .write data => (x.write env data).2
  | .flush => x.Flush env
  | .readFrom r => (x.readFrom env r).2
  | .setHeader header => { x with res := { x.res with header := header } }
  | .writeHeader statusCode => { x with res := x.res.writeHeader env statusCode }
  | .hijack => { x with res := { x.res with hijacked := true } }

/-- The exchange after each call of the handler, and then after `flush` and `releaseResponse`. -/
def trail (env : Env) (x : Exchange) : List HandlerCall → List Exchange
  | [] => [(x.flush env).2, (x.flush env).2.releaseResponse, x.finishResponse env]
  | call :: calls => x.perform env call :: (x.perform env call).trail env calls

/-- Whether a call is a `Write` that meets a cached buffer without room for its chunk. -/
def reuses (env : Env) (x : Exchange) : HandlerCall → Bool
  | .write data => x.overflows env data
  | _ => false

/-- No call is such a `Write`, in the state in which it is made. -/
def roomy (env : Env) (x : Exchange) : List HandlerCall → Bool
  | [] => true
  | call :: calls => !x.reuses env call && (x.perform env call).roomy env calls

theorem perform_kept (h : x.Kept) {call : HandlerCall} (hroom : x.reuses env call = false) :
    (x.perform env call).Kept := by
  cases call with
  | write data => exact write_kept h hroom
  | flush => exact Flush_kept h env
  | readFrom r => exact readFrom_kept h env r
  | setHeader header => exact h.setRes rfl rfl
  | writeHeader statusCode =>
    obtain ⟨st, code, hd, heq⟩ := x.res.writeHeader_eq env statusCode
    rw [perform, heq]
    exact h.setRes rfl rfl
  | hijack => exact h.setRes rfl rfl

theorem perform_reuses (h : x.Kept) {call : HandlerCall} (hover : x.reuses env call = true) :
    (x.perform env call).Reuses := by
  cases call with
  | write data => exact write_reuses h hover
  | flush => cases hover
  | readFrom r => cases hover
  | setHeader header => cases hover
  | writeHeader statusCode => cases hover
  | hijack => cases hover

theorem trail_clean_iff (h : x.Kept) (moves : Nat → Bool) (calls : List HandlerCall) :
    (∀ y ∈ x.trail env calls, y.Clean moves) ↔ x.roomy env calls = true := by
  induction calls generalizing x with
  | nil =>
    have hflush := flush_kept h env
    refine iff_of_true ?_ rfl
    intro y hy
    simp only [trail, mem_cons, not_mem_nil, or_false] at hy
    rcases hy with rfl | rfl | rfl
    · exact hflush.clean moves
    · exact (releaseResponse_kept hflush).clean moves
    · exact (finishResponse_kept h env).clean moves
  | cons call calls ih =>
    simp only [trail, forall_mem_cons, roomy]
    cases hover : x.reuses env call with
    | true =>
      refine iff_of_false ?_ Bool.false_ne_true
      rintro ⟨hclean, -⟩
      exact (perform_reuses h hover).not_clean moves hclean
    | false =>
      have hkept := perform_kept h hover
      rw [ih hkept]
      exact and_iff_right (hkept.clean moves)

end Exchange

theorem exchange_kept (hbuffer : res.buffer = none) (hbody : res.bodyBuffer = none) :
    res.exchange.Kept := by
  unfold Exchange.Kept Response.stored Response.exchange
  rw [hbuffer, hbody]
  exact Holding.nil

/-- Which responses keep to the rules of the memory pool, whatever is written to the connection and
whichever buffers the pool moves: those where no `Write` has to make room for its chunk in a cached
buffer that the connection then takes. -/
theorem response_buffers_clean_iff {res : Response} (hbuffer : res.buffer = none)
    (hbody : res.bodyBuffer = none) (env : Env) (moves : Nat → Bool) (calls : List HandlerCall) :
    (∀ y ∈ res.exchange.trail env calls, y.Clean moves) ↔
      res.exchange.roomy env calls = true :=
  Exchange.trail_clean_iff (exchange_kept hbuffer hbody) moves calls

theorem response_buffers_clean_iff_small_writes :
    plainResponse.buffer = none ∧ plainResponse.bodyBuffer = none ∧
    ∀ moves, ∀ y ∈ plainResponse.exchange.trail crEnv
      [.write (ascii "ab"), .flush, .write (ascii "c")], y.Clean moves :=
  ⟨rfl, rfl, fun moves => (response_buffers_clean_iff rfl rfl crEnv moves
    [.write (ascii "ab"), .flush, .write (ascii "c")]).2 (by decide)⟩

theorem Response.Fresh.overflows {env : Env} (h : res.Fresh env) (hok : env.connErr 0 = none)
    {data : Bytes} (hlen : maxPacketSize ≤ data.length) :
    res.exchange.overflows env data = true := by
  have hne : data ≠ [] := by
    rintro rfl
    exact absurd hlen (by decide)
  have hroom : ∀ n, maxPacketSize ≤ Exchange.chunkSize data n := by
    unfold Exchange.chunkSize
    omega
  simp [Exchange.overflows, Exchange.waiting, Response.exchange, hne, h.conn, h.chunked,
    h.headEncoded, hok, hroom]

theorem Response.Fresh.trail_reuses {env : Env} (h : res.Fresh env) (hok : env.connErr 0 = none)
    {data : Bytes} (hlen : maxPacketSize ≤ data.length) (calls : List HandlerCall) :
    ∃ y ∈ res.exchange.trail env (.write data :: calls), y.Reuses ∧ ∀ moves, ¬ y.Clean moves := by
  have hreuses := Exchange.write_reuses (exchange_kept h.buffer h.bodyBuffer) (h.overflows hok hlen)
  exact ⟨_, mem_cons_self, hreuses, hreuses.not_clean⟩

/-- One write of 65536 bytes to a response with its head in the buffer. -/
theorem large_write_reuses_freed_buffer :
    plainResponse.buffer = none ∧ plainResponse.bodyBuffer = none ∧
    ∃ y ∈ plainResponse.exchange.trail crEnv [.write (replicate 65536 97)],
      y.Reuses ∧ ∀ moves, ¬ y.Clean moves := by
  have hlen : maxPacketSize ≤ (replicate 65536 (97 : UInt8)).length := by
    rw [length_replicate]
    exact Nat.le_refl 65536
  exact ⟨rfl, rfl, plainResponse_fresh.trail_reuses rfl hlen []⟩

end Nbio.Http
