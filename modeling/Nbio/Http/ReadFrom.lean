import Nbio.Http.Bodyless

/-!
# `ReadFrom` and `Write`

`ReadFrom` encodes the head as it stands and sends the reader's bytes as they are.  It asks neither
`WriteHeader` for the status nor `checkChunked` for the framing, both of which `Write` does and
the final flush does behind the body.  A response is compared through what a client makes of it:
`Response.decode` reads it with the framing that the encoded header asks for, and says what is
left on the connection.
-/

namespace Nbio.Http

open Nbio.Go List Option

/-! ## The reader -/

/-- The reader that `ReadFrom` is given. -/
structure Reader where
  /-- What reads of the underlying reader give, one after the other. -/
  pieces : List Bytes
  /-- `N`, if it is wrapped in a `LimitedReader`. -/
  limit : Option Int
  /-- Whether the underlying reader is a file and the connection has the method `Sendfile`. -/
  sendfile : Bool
deriving DecidableEq, Repr

namespace Reader

/-- What reads of a `LimitedReader` give. -/
def limited : Int → List Bytes → List Bytes
  | _, [] => []
  | n, piece :: pieces =>
    if n ≤ 0 then []
    else piece.take n.toNat :: limited (n - (piece.take n.toNat).length) pieces

def reads (r : Reader) : List Bytes :=
  match r.limit with
  | none => r.pieces
  | some n => limited n r.pieces

def content (r : Reader) : Bytes :=
  match r.limit with
  | none => r.pieces.flatten
  | some n => r.pieces.flatten.take n.toNat

def lowered (r : Reader) (n : Int) : Reader := { r with limit := r.limit.map (· - n) }

theorem limited_flatten (n : Int) (pieces : List Bytes) :
    (limited n pieces).flatten = pieces.flatten.take n.toNat := by
  induction pieces generalizing n with
  | nil => simp [limited]
  | cons piece pieces ih =>
    rw [limited]
    by_cases hn : n ≤ 0
    · rw [if_pos hn, Int.toNat_of_nonpos hn]
      rfl
    · rw [if_neg hn, flatten_cons, ih, flatten_cons, take_append]
      congr 2
      rw [length_take]
      omega

theorem reads_flatten (r : Reader) : r.reads.flatten = r.content := by
  unfold reads content
  cases r.limit with
  | none => rfl
  | some n => exact limited_flatten n r.pieces

theorem content_of_limit {r : Reader} (h : r.limit.any (· ≤ 0) = true) : r.content = [] := by
  unfold content
  cases hl : r.limit with
  | none =>
    rw [hl] at h
    cases h
  | some n =>
    rw [hl, Option.any_some, decide_eq_true_iff] at h
    exact take_eq_nil_iff.2 (.inl (Int.toNat_of_nonpos h))

theorem lowered_zero (r : Reader) : r.lowered 0 = r := by
  simp [lowered]

def source (r : Reader) (disableSendfile : Bool) : Exchange.Source :=
  { disableSendfile := disableSendfile, limit := r.limit, pieces := r.reads
    sendfile := if r.sendfile then some (r.content.length, none) else none }

end Reader

namespace Exchange

variable {env : Env} {x y : Exchange}

/-- `ReadFrom` of a reader, of which `Sendfile` transfers all that it is asked for. -/
def readFromReader (env : Env) (x : Exchange) (disableSendfile : Bool) (r : Reader) :
    Option (Int × Option ResponseErr) × Reader × Exchange :=
  if x.res.conn = false then (some (0, none), r, x)
  else
    let x := { x with res := { x.res with hasBody := true } }.eoncodeHead env
    match x.res.buffer with
    | none => (none, r, x)
    | some b =>
      let (w, x) := x.send env b
      let x := (x.free b).setBuffer none
      match w.2 with
      | some e => (some (0, some e), r, x)
      | none =>
        if !disableSendfile && r.limit.any (· ≤ 0) then (some (0, none), r, x)
        else if !disableSendfile && r.sendfile then
          (some (r.content.length, none), r.lowered r.content.length,
            { x with sent := x.sent ++ [r.content] })
        else
          let (w, x) := x.copy env r.reads
          (some w, r.lowered w.1, x)

/-- It is `readFrom` with the bytes that `Sendfile` puts on the connection. -/
theorem readFromReader_eq (env : Env) (x : Exchange) (disableSendfile : Bool) (r : Reader) :
    (x.readFromReader env disableSendfile r).1 =
        (x.readFrom env (r.source disableSendfile)).1 ∧
      (x.readFromReader env disableSendfile r).2.2 =
        { (x.readFrom env (r.source disableSendfile)).2 with
          sent := (x.readFromReader env disableSendfile r).2.2.sent } := by
  unfold readFromReader readFrom
  by_cases hconn : x.res.conn = false
  · rw [if_pos hconn, if_pos hconn]
    exact ⟨rfl, rfl⟩
  · rw [if_neg hconn, if_neg hconn]
    dsimp only
    generalize eoncodeHead env _ = z
    cases z.res.buffer with
    | none => exact ⟨rfl, rfl⟩
    | some b =>
      dsimp only
      generalize z.send env b = w
      obtain ⟨⟨n, e⟩, z⟩ := w
      cases e with
      | some e => exact ⟨rfl, rfl⟩
      | none =>
        cases disableSendfile with
        | true => exact ⟨rfl, rfl⟩
        | false =>
          by_cases hlimit : r.limit.any (· ≤ 0) = true <;> cases hfile : r.sendfile <;>
            simp [Reader.source, hlimit, hfile]

def headed (env : Env) (x : Exchange) : Exchange :=
  { x with res := { x.res with hasBody := true } }.eoncodeHead env

theorem copy_ok (h : ∀ n, env.connErr n = none) (x : Exchange) (pieces : List Bytes) :
    (x.copy env pieces).1 = (↑pieces.flatten.length, none) ∧
      (x.copy env pieces).2.sent = x.sent ++ pieces ∧ (x.copy env pieces).2.res = x.res := by
  induction pieces generalizing x with
  | nil => exact ⟨rfl, (append_nil _).symm, rfl⟩
  | cons piece pieces ih =>
    obtain ⟨hres, ⟨hr, hs⟩ | ⟨n, e, -, -, i, hi⟩⟩ := connWrite_outcome env x piece
    · unfold copy
      generalize x.connWrite env piece = w at hres hr hs
      obtain ⟨r, y⟩ := w
      subst hr
      obtain ⟨hr', hs', hres'⟩ := ih y
      dsimp only
      rw [hr', hs', hres', hs, hres]
      refine ⟨?_, by rw [append_assoc]; rfl, rfl⟩
      rw [flatten_cons, length_append]
      rfl
    · exact absurd (h i) hi

theorem readFromReader_ok (h : ∀ n, env.connErr n = none) (hconn : x.res.conn = true)
    (hbuf : (x.headed env).res.buffer ≠ none) (disableSendfile : Bool) (r : Reader) :
    let z := x.headed env
    let y := (x.readFromReader env disableSendfile r).2.2
    (x.readFromReader env disableSendfile r).1 = some (↑r.content.length, none) ∧
      (x.readFromReader env disableSendfile r).2.1 = r.lowered r.content.length ∧
      y.res = { z.res with buffer := none } ∧ y.sent.flatten = z.out ++ r.content := by
  unfold readFromReader
  rw [if_neg (by simp [hconn])]
  unfold headed at hbuf ⊢
  generalize eoncodeHead env _ = z at hbuf
  obtain ⟨b, hb⟩ := ne_none_iff_exists'.1 hbuf
  obtain ⟨hnone, hsent, hres⟩ := send_ok h
  simp only [hb]
  generalize z.send env b = w at hnone hsent hres
  obtain ⟨w, y⟩ := w
  dsimp only at hnone hsent hres
  simp only [hnone]
  have hset : ((y.free b).setBuffer none).res = { z.res with buffer := none } := by
    rw [← hres]
    rfl
  have hout : ((y.free b).setBuffer none).sent.flatten = z.out := by
    change y.sent.flatten = z.out
    rw [hsent, out, hb]
    simp
  generalize (y.free b).setBuffer none = y' at hset hout
  by_cases hlimit : (!disableSendfile && r.limit.any (· ≤ 0)) = true
  · rw [if_pos hlimit]
    have hnil : r.content = [] := by
      rw [Bool.and_eq_true] at hlimit
      exact Reader.content_of_limit hlimit.2
    rw [hnil]
    exact ⟨rfl, r.lowered_zero.symm, hset, by rw [hout, append_nil]⟩
  · rw [if_neg hlimit]
    by_cases hfile : (!disableSendfile && r.sendfile) = true
    · rw [if_pos hfile]
      refine ⟨rfl, rfl, hset, ?_⟩
      simp [hout]
    · rw [if_neg hfile]
      obtain ⟨hr, hs, hres'⟩ := copy_ok h y' r.reads
      rw [hr, hs, hres', flatten_append, r.reads_flatten, hout]
      exact ⟨rfl, rfl, hset, rfl⟩

end Exchange

/-! ## What a client reads -/

variable {rest : Bytes}

variable {data : Bytes}

namespace Response

variable {env : Env} {e p : Response} {rest : Bytes}

/-- The length that the head gives when it is encoded from this response with `n` bytes cached. -/
def announcesFor (res : Response) (n : Nat) : Option Nat :=
  if res.header.lacks contentLengthHeader then some n
  else
    match parseInt (res.header.get contentLengthHeader) 10 64 with
    | .ok v => if 0 ≤ v then some v.toNat else none
    | .error _ => none

def announces (res : Response) : Option Nat :=
  res.announcesFor (if res.hasBody then (bufData res.bodyBuffer).length else 0)

end Response

/-! ## Responses without a body so far -/

structure Response.Decided (env : Env) (res : Response) : Prop where
  conn : res.conn = true
  hijacked : res.hijacked = false
  settled : res.Settled env

theorem Response.Unused.decided {res : Response} (h : res.Unused) (env : Env) :
    (res.prepared env).Decided env := by
  obtain ⟨st, code, hd, c, hp⟩ := res.prepared_eq env
  refine ⟨?_, ?_, res.prepared_settled env⟩
  · rw [hp]
    exact h.conn
  · rw [hp]
    exact h.hijacked

/-- How a head encoded from `e` is one of the response `p`, with `body` to announce. -/
structure Response.Frames (p e : Response) (body : Bytes) : Prop where
  same : e = p.progress e
  body : bufData e.bodyBuffer = body

namespace Response.Frames

variable {env : Env} {p e : Response} {body : Bytes}

variable (h : p.Frames e body)

include h

theorem headBlock (env : Env) :
    e.headBlock env = p.headOf env e.hasBody body := by
  rw [h.same, headBlock_progress, ← h.same, h.body]

theorem statusCode : e.statusCode = p.statusCode := by
  rw [h.same]
  rfl

theorem asksChunked : e.asksChunked = p.asksChunked := by
  rw [h.same]
  rfl

theorem trailers : e.trailers = p.trailers := by
  rw [h.same]
  rfl

theorem announces (hbody : body = [] ∨ e.hasBody = true) :
    e.announces = p.announcesFor body.length := by
  have hheader : ∀ n, e.announcesFor n = p.announcesFor n := by
    intro n
    rw [h.same]
    rfl
  rw [Response.announces, hheader, h.body]
  rcases hbody with rfl | hbody
  · rw [length_nil, ite_self]
  · rw [if_pos hbody]

end Response.Frames

variable {ops : List Op}

namespace Exchange

variable {env : Env} {p : Response} {x : Exchange}

/-- No body data has been accepted: the head is still to be encoded, or is all that is on its
way. -/
structure Quiet (env : Env) (p : Response) (x : Exchange) : Prop where
  same : x.res = p.progress x.res
  bodyBuffer : x.res.bodyBuffer = none
  bodyWritten : x.res.bodyWritten = 0
  memo : 0 < x.res.contentLen → p.declared = .ok x.res.contentLen
  unsent : x.res.headEncoded = false → x.sent = [] ∧ x.res.buffer = none
  sent : x.res.headEncoded = true →
    x.res.buffer ≠ none ∧ x.res.trailer = p.trailers ∧ ∃ b, x.out = p.headOf env b []

/-- A call that has no body data accepted. -/
def Idle (p : Response) : Op → Prop
  | .flush => True
  | .write data => data = [] ∨ p.chunked = false ∧ p.Refuses data

/-- The response from which the head is encoded by one of these calls. -/
def opener (env : Env) (x : Exchange) : Op → Response
  | .flush => x.res.prepared env
  | .write _ => { x.res.prepared env with hasBody := true }

/-- The response from which the head is encoded, by the first of these calls that does it or by
the final flush. -/
def headSource (env : Env) (x : Exchange) : List Op → Response
  | [] => x.res.prepared env
  | op :: ops =>
    if (x.call env op).res.headEncoded then x.opener env op
    else (x.call env op).headSource env ops

namespace Quiet

section

variable (hok : ∀ n, env.connErr n = none) (hp : p.Decided env) (hx : Quiet env p x)

include hx

theorem frames : p.Frames x.res [] where
  same := hx.same
  body := by rw [hx.bodyBuffer]; rfl

theorem frames_body : p.Frames { x.res with hasBody := true } [] where
  same := by
    have := hx.same
    rw [this]
    rfl
  body := by rw [hx.bodyBuffer]; rfl

def sheet (x : Exchange) : Sheet :=
  { head := if x.res.headEncoded then some x.out else none, hasBody := x.res.hasBody, body := [] }

theorem out_unsent (hnot : x.res.headEncoded = false) : x.out = [] := by
  obtain ⟨hsent, hbuf⟩ := hx.unsent hnot
  rw [out, hsent, hbuf]
  rfl

theorem plain : Plain env p x (sheet x) := by
  have hbody : bufData x.res.bodyBuffer = [] := by
    rw [hx.bodyBuffer]
    rfl
  have hwhole : x.whole = x.out := by
    rw [whole, hbody, append_nil]
  refine ⟨hx.same, hx.memo, ?_, rfl, fun _ _ _ => hbody, ?_, fun _ => hx.bodyWritten, ?_, ?_, ?_⟩
  · unfold sheet
    cases x.res.headEncoded <;> rfl
  · rintro cl ⟨-, hpos⟩
    rw [hx.bodyWritten]
    omega
  · intro hnone
    have hnot : x.res.headEncoded = false := by
      unfold sheet at hnone
      cases h : x.res.headEncoded with
      | false => rfl
      | true => simp [h] at hnone
    exact ⟨hx.out_unsent hnot, hbody, hx.bodyWritten⟩
  · intro hd hhd
    unfold sheet at hhd
    cases h : x.res.headEncoded with
    | false => simp [h] at hhd
    | true =>
      have : x.out = hd := by simpa [h] using hhd
      rw [hwhole, this, hx.bodyWritten]
      omega
  · refine fun _ => ⟨?_, hx.bodyWritten⟩
    rw [hwhole]
    unfold sheet
    cases h : x.res.headEncoded with
    | false => simp [hx.out_unsent h]
    | true => simp

theorem encoded :
    Quiet env p (x.eoncodeHead env) ∧ (x.eoncodeHead env).res.headEncoded = true ∧
      (x.eoncodeHead env).out = if x.res.headEncoded then x.out else x.res.headBlock env := by
  cases henc : x.res.headEncoded with
  | true =>
    have hsame : x.eoncodeHead env = x := if_pos henc
    rw [hsame]
    exact ⟨hx, henc, rfl⟩
  | false =>
    obtain ⟨hsent, hspec⟩ := eoncodeHead_spec env henc
    have hout : (x.eoncodeHead env).out = x.res.headBlock env := by
      rw [out, hsent, hspec, (hx.unsent henc).1]
      rfl
    have hhead := hout.trans (hx.frames.headBlock env)
    refine ⟨⟨?_, ?_, ?_, ?_, ?_, fun _ => ⟨?_, ?_, _, hhead⟩⟩, by rw [hspec], hout⟩ <;> rw [hspec]
    · rw [hx.same]
      rfl
    · exact hx.bodyBuffer
    · exact hx.bodyWritten
    · exact hx.memo
    · intro h
      cases h
    · intro h
      cases h
    · exact hx.frames.trailers

include hp

theorem settled : x.res.prepared env = x.res := by
  have := hp.settled.progress x.res
  rw [← hx.same] at this
  exact this

theorem conn : x.res.conn = true := by
  rw [hx.same]
  exact hp.conn

theorem hijacked : x.res.hijacked = false := by
  rw [hx.same]
  exact hp.hijacked

theorem write (hdata : data = [] ∨ p.chunked = false ∧ p.Refuses data) :
    Quiet env p (x.write env data).2 ∧
      (x.write env data).2.res.headEncoded = x.res.headEncoded ∧
      (x.write env data).2.out = x.out := by
  by_cases hne : data = []
  · rw [Exchange.write, if_pos (.inl hne)]
    exact ⟨hx, rfl, rfl⟩
  · obtain ⟨hchunked, hrefuses⟩ := hdata.resolve_left hne
    obtain ⟨n, hn, herr, hrefuse, -, -⟩ :=
      hx.plain.write_eq ⟨hp.conn, hp.hijacked, hchunked, hp.settled⟩ hne
    have hy : Quiet env p
        { x with res := { x.res with hasBody := true, contentLen := n } } := by
      refine ⟨?_, hx.bodyBuffer, hx.bodyWritten, hn, hx.unsent, hx.sent⟩
      have := hx.same
      rw [this]
      rfl
    rcases hrefuses with hnil | ⟨e, he⟩ | ⟨cl, hcl, hlt⟩
    · exact absurd hnil hne
    · rw [herr e he]
      exact ⟨hy, rfl, rfl⟩
    · have hwritten := hx.bodyWritten
      rw [hrefuse cl hcl (by omega)]
      exact ⟨hy, rfl, rfl⟩

include hok

theorem Flush :
    Quiet env p (x.Flush env) ∧ (x.Flush env).res.headEncoded = true ∧
      (x.Flush env).out = if x.res.headEncoded then x.out else x.res.headBlock env := by
  have hno : ¬ (x.res.hijacked = true ∨ x.res.conn = false) := by
    simp [hx.hijacked hp, hx.conn hp]
  have hsettled : (x.res.writeHeader env 200).checkChunked = x.res := hx.settled hp
  obtain ⟨hz, henc, hhead⟩ := hx.encoded
  rw [Exchange.Flush, if_neg hno]
  simp only [hsettled]
  obtain ⟨hres, hout, hbuf⟩ := flushBufs_bodyless hok hz.bodyBuffer
  obtain ⟨hbuffer, htrailer, b, hsent⟩ := hz.sent henc
  refine ⟨⟨?_, ?_, ?_, ?_, ?_, fun _ => ⟨fun hnone => hbuffer (hbuf.1 hnone), ?_, b,
    hout.trans hsent⟩⟩, by rw [hres, henc], hout.trans hhead⟩ <;> rw [hres]
  · rw [hz.same]
    rfl
  · exact hz.bodyBuffer
  · exact hz.bodyWritten
  · exact hz.memo
  · intro h
    cases henc.symm.trans h
  · exact htrailer

theorem call {op : Op} (hop : Idle p op) :
    Quiet env p (x.call env op) ∧
      (x.call env op).res.headEncoded = (x.res.headEncoded || op == .flush) ∧
      (x.res.headEncoded = true → (x.call env op).out = x.out) := by
  cases op with
  | flush =>
    obtain ⟨hy, henc, hout⟩ := hx.Flush hok hp
    refine ⟨hy, henc.trans (by simp), fun h => ?_⟩
    rw [if_pos h] at hout
    exact hout
  | write data =>
    obtain ⟨hy, henc, hout⟩ := hx.write hp hop
    exact ⟨hy, henc.trans (by simp), fun _ => hout⟩

theorem run (hops : ∀ op ∈ ops, Idle p op) :
    Quiet env p (ops.foldl (·.call env) x) ∧
      (ops.foldl (·.call env) x).res.headEncoded = (x.res.headEncoded || ops.contains .flush) ∧
      (x.res.headEncoded = true → (ops.foldl (·.call env) x).out = x.out) := by
  induction ops generalizing x with
  | nil => exact ⟨hx, by simp, fun _ => rfl⟩
  | cons op ops ih =>
    obtain ⟨hop, hops⟩ := forall_mem_cons.1 hops
    obtain ⟨hy, henc, hout⟩ := hx.call hok hp hop
    obtain ⟨hz, henc', hout'⟩ := ih hy hops
    refine ⟨hz, ?_, fun h => ?_⟩
    · rw [foldl_cons, henc', henc, contains_cons, Bool.or_assoc, BEq.comm]
    · rw [foldl_cons, hout' (by rw [henc, h]; rfl), hout h]

theorem headSource (hnot : x.res.headEncoded = false) (hops : ∀ op ∈ ops, Idle p op)
    (hflush : .flush ∈ ops) (more : List Op) :
    p.Frames (x.headSource env (ops ++ more)) [] ∧
      (ops.foldl (·.call env) x).out = (x.headSource env (ops ++ more)).headBlock env := by
  induction ops generalizing x with
  | nil => cases hflush
  | cons op ops ih =>
    obtain ⟨hop, hrest⟩ := forall_mem_cons.1 hops
    obtain ⟨hy, henc, -⟩ := hx.call hok hp hop
    rw [cons_append, Exchange.headSource, henc, hnot, foldl_cons]
    cases op with
    | flush =>
      obtain ⟨-, henc', hout⟩ := hx.Flush hok hp
      obtain ⟨-, -, hout'⟩ := hy.run hok hp hrest
      rw [opener, hx.settled hp, hout' henc']
      refine ⟨hx.frames, ?_⟩
      rw [if_neg (by simp [hnot])] at hout
      exact hout
    | write data =>
      have hflush' : .flush ∈ ops := by simpa using hflush
      exact ih hy (by rw [henc, hnot]; rfl) hrest hflush'

theorem headSource_append (hnot : x.res.headEncoded = false) (hops : ∀ op ∈ ops, Idle p op)
    (hflush : .flush ∉ ops) (more : List Op) :
    x.headSource env (ops ++ more) = (ops.foldl (·.call env) x).headSource env more := by
  induction ops generalizing x with
  | nil => rfl
  | cons op ops ih =>
    obtain ⟨hop, hops⟩ := forall_mem_cons.1 hops
    obtain ⟨hne, hflush⟩ := not_or.1 (mt mem_cons.2 hflush)
    obtain ⟨hy, henc, -⟩ := hx.call hok hp hop
    have hnot' : (x.call env op).res.headEncoded = false := by
      rw [henc, hnot]
      exact beq_eq_false_iff_ne.2 (Ne.symm hne)
    rw [cons_append, Exchange.headSource, if_neg (by simp [hnot'])]
    exact ih hy hnot' hops hflush

end

end Quiet

end Exchange

/-! ## `Write` on a response without a body so far -/

namespace Exchange

variable {env : Env} {p : Response} {x y : Exchange} {t : List (Bytes × Bytes)}

theorem respond_write_streams (hok : ∀ n, env.connErr n = none) (hconn : x.res.conn = true)
    (hhij : x.res.hijacked = false) (hchunked : (x.res.prepared env).chunked = true)
    (hopened : ∀ b, Streams t (x.opened env b) ∧ (x.opened env b).res.buffer ≠ none)
    (data : Bytes) :
    x.respond env [.write data] =
      (x.opened env (!data.isEmpty || x.res.hasBody)).out ++
        (chunks [data] ++ Response.lastChunk env t) := by
  cases data with
  | nil =>
    exact flushResponse_streams hok hconn hhij (hopened x.res.hasBody).1
  | cons c cs =>
    obtain ⟨ho, hbuf⟩ := hopened true
    obtain ⟨hy, -, hout⟩ := write_streams hok hconn hchunked ho (cons_ne_nil c cs)
    obtain ⟨hy', hout', -⟩ := hy.opened env (x.write env (c :: cs)).2.res.hasBody
    have hsent := flushResponse_streams hok hy.conn hy.hijacked hy'
    rw [hout', hout hbuf] at hsent
    rw [chunks_cons (cons_ne_nil c cs), chunks_nil, append_nil, ← append_assoc]
    exact hsent

namespace Quiet

theorem streams (hx : Quiet env p x) (hp : p.Decided env) (hchunked : p.chunked = true)
    (henc : x.res.headEncoded = true) : Streams p.trailers x where
  conn := hx.conn hp
  hijacked := hx.hijacked hp
  chunkChecked := by
    rw [← hx.settled hp, Response.prepared]
    obtain ⟨c, hd, h⟩ := (x.res.writeHeader env 200).checkChunked_eq
    rw [h]
  chunked := by
    rw [hx.same]
    exact hchunked
  headEncoded := henc
  trailer := (hx.sent henc).2.1
  bodyBuffer := hx.bodyBuffer

variable (hok : ∀ n, env.connErr n = none) (hx : Quiet env p x)

include hok hx

theorem respond_chunked_sent (hp : p.Decided env) (hchunked : p.chunked = true)
    (henc : x.res.headEncoded = true) (data : Bytes) :
    x.respond env [.write data] =
      x.out ++ (chunks [data] ++ Response.lastChunk env p.trailers) := by
  have hs := hx.streams hp hchunked henc
  rw [respond_write_streams hok hs.conn hs.hijacked (hs.chunked_prepared env)
    (fun b => ⟨(hs.opened env b).1, by
      rw [(hs.opened env b).2.2]
      exact (hx.sent henc).1⟩), (hs.opened env _).2.1]

theorem respond_chunked_open (hp : p.Decided env) (hchunked : p.chunked = true)
    (hnot : x.res.headEncoded = false) (data : Bytes) :
    p.Frames (x.headSource env [.write data]) [] ∧
      x.respond env [.write data] = (x.headSource env [.write data]).headBlock env ++
        (chunks [data] ++ Response.lastChunk env p.trailers) := by
  have hc : (x.res.prepared env).chunked = true := by
    rw [hx.settled hp, hx.same]
    exact hchunked
  have hopened := opened_streams (hx.conn hp) (hx.hijacked hp) hnot hx.bodyBuffer hc
  rw [hx.settled hp, hx.frames.trailers] at hopened
  have hwire := respond_write_streams hok (hx.conn hp) (hx.hijacked hp) hc
    (fun b => ⟨(hopened b).1, (hopened b).2.2⟩) data
  rw [(hopened _).2.1, (hx.unsent hnot).1] at hwire
  rw [hwire, Exchange.headSource]
  cases data with
  | nil =>
    rw [call_write_nil, if_neg (by simp [hnot]), Exchange.headSource, hx.settled hp]
    exact ⟨hx.frames, rfl⟩
  | cons c cs =>
    have hstream := (write_streams hok (hx.conn hp) hc (hopened true).1
      (cons_ne_nil c cs)).1
    have henc : (x.call env (.write (c :: cs))).res.headEncoded = true := hstream.headEncoded
    rw [if_pos henc, opener, hx.settled hp]
    exact ⟨hx.frames_body, rfl⟩

end Quiet

end Exchange

/-! ## `ReadFrom` on a response without a body so far -/

namespace Response

theorem prepared_progress (env : Env) (res r : Response) :
    (res.progress r).prepared env = (res.prepared env).progress r := by
  rw [prepared, writeHeader_progress, checkChunked_progress]
  rfl

end Response

namespace Exchange

variable {env : Env} {p : Response} {x y : Exchange}

variable (hok : ∀ n, env.connErr n = none)

include hok

theorem flushResponse_behind (hconn : y.res.conn = true) (hhij : y.res.hijacked = false)
    (henc : y.res.headEncoded = true) (hbuf : y.res.buffer = none) (hbody : y.res.bodyBuffer = none)
    :
    (y.flushResponse env).2.sent.flatten = y.sent.flatten ++
      (if (y.res.prepared env).chunked then Response.lastChunk env y.res.trailer else []) := by
  have hno : ¬ (y.res.conn = false ∨ y.res.hijacked = true) := by simp [hconn, hhij]
  obtain ⟨st, code, hd, c, hp⟩ := y.res.prepared_eq env
  have hprep : (y.res.writeHeader env 200).checkChunked = y.res.prepared env := rfl
  rw [flushResponse, if_neg hno]
  simp only [hprep]
  have hsame : { y with res := y.res.prepared env }.eoncodeHead env =
      { y with res := y.res.prepared env } := by
    rw [eoncodeHead, if_pos]
    rw [hp]
    exact henc
  rw [hsame, flush]
  cases hc : (y.res.prepared env).chunked with
  | true =>
    rw [if_pos rfl, flushChunked_sends hok, out, hp, hbuf]
    simp
  | false =>
    rw [if_neg (by simp), (flushPlain_sends env _).all hok, hp, hbuf, hbody]
    rfl

theorem readFrom_respond (hconn : x.res.conn = true) (hhij : x.res.hijacked = false)
    (hbody : x.res.bodyBuffer = none) (hbuf : (x.headed env).res.buffer ≠ none)
    (disableSendfile : Bool) (r : Reader) :
    let z := x.headed env
    ((x.readFromReader env disableSendfile r).2.2.flushResponse env).2.sent.flatten =
      z.out ++ (r.content ++
        if (x.res.prepared env).chunked then Response.lastChunk env z.res.trailer else []) := by
  obtain ⟨-, -, hres, hsent⟩ := readFromReader_ok hok hconn hbuf disableSendfile r
  generalize (x.readFromReader env disableSendfile r).2.2 = y at hres hsent
  have hprog : y.res = x.res.progress y.res ∧ y.res.headEncoded = true ∧
      y.res.bodyBuffer = none := by
    rw [hres]
    unfold headed eoncodeHead
    split
    · next h => exact ⟨rfl, h, hbody⟩
    · exact ⟨rfl, rfl, hbody⟩
  obtain ⟨hprog, henc, hbody'⟩ := hprog
  have hc : (y.res.prepared env).chunked = (x.res.prepared env).chunked := by
    rw [hprog, Response.prepared_progress]
    rfl
  have hy := flushResponse_behind hok (by rw [hprog]; exact hconn)
    (by rw [hprog]; exact hhij) henc (by rw [hres]) hbody'
  rw [hy, hsent, hc, append_assoc]
  rw [hres]

theorem readFrom_sent (hp : p.Decided env) (hx : Quiet env p x) (henc : x.res.headEncoded = true)
    (disableSendfile : Bool) (r : Reader) :
    (x.headed env).res.buffer ≠ none ∧
    ((x.readFromReader env disableSendfile r).2.2.flushResponse env).2.sent.flatten =
      x.out ++ (r.content ++ if p.chunked then Response.lastChunk env p.trailers else []) := by
  have hsame : x.headed env = { x with res := { x.res with hasBody := true } } := if_pos henc
  obtain ⟨hbuf, htrailer, -⟩ := hx.sent henc
  have hbuf' : (x.headed env).res.buffer ≠ none := by
    rw [hsame]
    exact hbuf
  have hchunked : (x.res.prepared env).chunked = p.chunked := by
    rw [hx.settled hp, hx.same]
    rfl
  refine ⟨hbuf', ?_⟩
  rw [readFrom_respond hok (hx.conn hp) (hx.hijacked hp) hx.bodyBuffer hbuf', hsame, hchunked,
    ← htrailer]
  rfl

theorem readFrom_open (hconn : x.res.conn = true) (hhij : x.res.hijacked = false)
    (hbody : x.res.bodyBuffer = none) (hnot : x.res.headEncoded = false) (hsent : x.sent = [])
    (disableSendfile : Bool) (r : Reader) :
    (x.headed env).res.buffer ≠ none ∧
    ((x.readFromReader env disableSendfile r).2.2.flushResponse env).2.sent.flatten =
      { x.res with hasBody := true }.headBlock env ++ (r.content ++
        if (x.res.prepared env).chunked then
          Response.lastChunk env { x.res with hasBody := true }.trailers else []) := by
  obtain ⟨hs, hspec⟩ := eoncodeHead_spec env
    (x := { x with res := { x.res with hasBody := true } }) hnot
  have hbuf : (x.headed env).res.buffer ≠ none := by
    rw [headed, hspec]
    nofun
  refine ⟨hbuf, ?_⟩
  rw [readFrom_respond hok hconn hhij hbody hbuf, headed, out, hs, hspec, hsent]
  rfl

end Exchange

/-! ## Comparing the two -/

def takesEffect (ops : List Op) : Bool := ops.any (· != .write [])

namespace Response

variable {env : Env} {res e e' p : Response} {data : Bytes}

theorem Unused.quiet (h : res.Unused) (env : Env) :
    Exchange.Quiet env (res.prepared env) (res.exchange.prepare env) := by
  obtain ⟨st, code, hd, c, hp⟩ := res.prepared_eq env
  have hres : (res.exchange.prepare env).res = _ := hp
  refine ⟨rfl, ?_, ?_, ?_, ?_, ?_⟩
  · rw [hres]; exact h.bodyBuffer
  · rw [hres]; exact h.bodyWritten
  · rw [hres, h.contentLen]; nofun
  · intro _
    refine ⟨rfl, ?_⟩
    rw [hres]
    exact h.buffer
  · rw [hres, h.headEncoded]; nofun

end Response

namespace Exchange

variable {env : Env} {x : Exchange} {res : Response}

theorem headSource_prepare (hconn : x.res.conn = true) (hhij : x.res.hijacked = false)
    (ops : List Op) : x.headSource env ops = (x.prepare env).headSource env ops := by
  have hagain : (x.prepare env).res.prepared env = x.res.prepared env := prepare_again env x
  have hencoded : (x.prepare env).res.headEncoded = x.res.headEncoded := by
    obtain ⟨st, code, hd, c, hp⟩ := x.res.prepared_eq env
    rw [prepare, hp]
  induction ops with
  | nil => exact hagain.symm
  | cons op ops ih =>
    have hopener : (x.prepare env).opener env op = x.opener env op := by
      cases op with
      | flush => exact hagain
      | write data => rw [opener, opener, hagain]
    rw [headSource, headSource, hopener]
    rcases call_prepare env hconn hhij op with h | ⟨h, h'⟩
    · rw [h]
    · rw [h, h', hencoded, ih]

theorem run_of_effect (env : Env) (hconn : x.res.conn = true) (hhij : x.res.hijacked = false)
    (heff : takesEffect ops = true) :
    ops.foldl (·.call env) x = ops.foldl (·.call env) (x.prepare env) := by
  induction ops with
  | nil => cases heff
  | cons op ops ih =>
    rw [foldl_cons, foldl_cons]
    by_cases hop : op = .write []
    · subst hop
      exact ih heff
    · rw [call_prepare_of_ne hconn hhij hop]

theorem run_of_no_effect (env : Env) (x : Exchange) (heff : takesEffect ops = false) :
    ops.foldl (·.call env) x = x ∧ .flush ∉ ops := by
  induction ops with
  | nil => exact ⟨rfl, nofun⟩
  | cons op ops ih =>
    rw [takesEffect, any_cons, Bool.or_eq_false_iff] at heff
    have hop : op = .write [] := by simpa using heff.1
    subst hop
    exact ⟨(ih heff.2).1, by simpa using (ih heff.2).2⟩

end Exchange

namespace Response

variable {env : Env} {res : Response} {ops : List Op}

def readSource (env : Env) (res : Response) (ops : List Op) : Response :=
  let x := ops.foldl (·.call env) res.exchange
  if x.res.headEncoded then res.exchange.headSource env ops else { x.res with hasBody := true }

theorem Unused.run_quiet (hres : res.Unused) (hok : ∀ n, env.connErr n = none)
    (hidle : ∀ op ∈ ops, Exchange.Idle (res.prepared env) op) :
    (res.exchange.prepare env).res.headEncoded = false ∧
      Exchange.Quiet env (res.prepared env) (ops.foldl (·.call env) (res.exchange.prepare env)) ∧
      ((ops.foldl (·.call env) (res.exchange.prepare env)).res.headEncoded = true ↔
        .flush ∈ ops) := by
  have hnot : (res.exchange.prepare env).res.headEncoded = false := by
    obtain ⟨st, code, hd, c, hp⟩ := res.prepared_eq env
    have hprep : (res.exchange.prepare env).res = _ := hp
    rw [hprep]
    exact hres.headEncoded
  obtain ⟨hy, henc, -⟩ := (hres.quiet env).run hok (hres.decided env) hidle
  refine ⟨hnot, hy, ?_⟩
  rw [henc, hnot, Bool.false_or, contains_iff_mem]

theorem respond_write (hres : res.Unused) (ops : List Op) (data : Bytes) :
    res.exchange.respond env (ops ++ [.write data]) =
      (ops.foldl (·.call env) (res.exchange.prepare env)).respond env [.write data] := by
  rw [Exchange.respond_prepare hres.conn hres.hijacked, Exchange.respond, foldl_append]
  rfl

variable (hres : res.Unused) (hok : ∀ n, env.connErr n = none)

include hres hok

theorem Unused.write_chunked (hchunked : (res.prepared env).chunked = true)
    (hidle : ∀ op ∈ ops, Exchange.Idle (res.prepared env) op) (data : Bytes) :
    let e := res.exchange.headSource env (ops ++ [.write data])
    (res.prepared env).Frames e [] ∧ res.exchange.respond env (ops ++ [.write data]) =
      e.headBlock env ++ (chunks [data] ++ lastChunk env e.trailers) := by
  have hp := hres.decided env
  have hx := hres.quiet env
  obtain ⟨hnot, hy, henc⟩ := hres.run_quiet hok hidle
  rw [Exchange.headSource_prepare hres.conn hres.hijacked, respond_write hres]
  by_cases hflush : .flush ∈ ops
  · obtain ⟨hframes, hout⟩ := hx.headSource hok hp hnot hidle hflush [.write data]
    refine ⟨hframes, ?_⟩
    rw [hy.respond_chunked_sent hok hp hchunked (henc.2 hflush), hout, hframes.trailers]
  · rw [hx.headSource_append hok hp hnot hidle hflush]
    have hnot' := Bool.eq_false_iff.2 (mt henc.1 hflush)
    obtain ⟨hframes, hout⟩ := hy.respond_chunked_open hok hp hchunked hnot' data
    refine ⟨hframes, ?_⟩
    rw [hout, hframes.trailers]

theorem Unused.read (hidle : ∀ op ∈ ops, Exchange.Idle (res.prepared env) op)
    (disableSendfile : Bool) (r : Reader) :
    let x := ops.foldl (·.call env) res.exchange
    let e := res.readSource env ops
    (x.headed env).res.buffer ≠ none ∧ x.res.conn = true ∧
      (takesEffect ops = true → (res.prepared env).Frames e []) ∧
      (takesEffect ops = false → e = { res with hasBody := true }) ∧
      ((x.readFromReader env disableSendfile r).2.2.flushResponse env).2.sent.flatten =
        e.headBlock env ++ (r.content ++
          if (res.prepared env).chunked then lastChunk env e.trailers else []) := by
  have hp := hres.decided env
  have hx := hres.quiet env
  cases heff : takesEffect ops with
  | false =>
    obtain ⟨hrun, -⟩ := Exchange.run_of_no_effect env res.exchange heff
    have hnot : res.exchange.res.headEncoded = false := hres.headEncoded
    rw [readSource, hrun, if_neg (by simp [hnot])]
    obtain ⟨hbuf, hwire⟩ := Exchange.readFrom_open hok hres.conn hres.hijacked
      hres.bodyBuffer hnot rfl disableSendfile r
    exact ⟨hbuf, hres.conn, nofun, fun _ => rfl, hwire⟩
  | true =>
    have hrun := Exchange.run_of_effect (x := res.exchange) env hres.conn hres.hijacked heff
    obtain ⟨hnot, hy, henc⟩ := hres.run_quiet hok hidle
    have hsource : .flush ∈ ops → (res.prepared env).Frames (res.exchange.headSource env ops) [] ∧
        (ops.foldl (·.call env) (res.exchange.prepare env)).out =
          (res.exchange.headSource env ops).headBlock env := by
      intro hflush
      have := hx.headSource hok hp hnot hidle hflush []
      rw [append_nil] at this
      rw [Exchange.headSource_prepare hres.conn hres.hijacked]
      exact this
    rw [readSource, hrun]
    generalize ops.foldl (·.call env) (res.exchange.prepare env) = y at hy henc hsource
    by_cases hflush : .flush ∈ ops
    · obtain ⟨hframes, hout⟩ := hsource hflush
      obtain ⟨hbuf, hwire⟩ := Exchange.readFrom_sent hok hp hy (henc.2 hflush) disableSendfile r
      rw [if_pos (henc.2 hflush)]
      refine ⟨hbuf, hy.conn hp, fun _ => hframes, nofun, ?_⟩
      rw [hwire, hout, hframes.trailers]
    · have hnot' := Bool.eq_false_iff.2 (mt henc.1 hflush)
      obtain ⟨hbuf, hwire⟩ := Exchange.readFrom_open hok (hy.conn hp) (hy.hijacked hp)
        hy.bodyBuffer hnot' (hy.unsent hnot').1 disableSendfile r
      rw [if_neg (by simp [hnot'])]
      refine ⟨hbuf, hy.conn hp, fun _ => hy.frames_body, nofun, ?_⟩
      have hchunked : (y.res.prepared env).chunked = (res.prepared env).chunked := by
        rw [hy.settled hp, hy.same]
        rfl
      rw [hwire, hchunked]

end Response

namespace Response

variable {env : Env} {res : Response} {ops : List Op}

end Response

end Nbio.Http
