import Nbio.Http.Parser

/-!
# The response writer

`Response` collects what a handler writes and sends it to the connection: chunk by chunk, or
as a body whose length has been announced or is counted at the end.  The head is encoded into
`buffer` by the first call that needs it, and `buffer` then also holds chunks that are not yet
worth a packet; `bodyBuffer` holds body bytes of a response that is not chunked.

A buffer of the memory pool is a value with an identity: `mempool` records what is done to it.
What the pool's memory holds, the outcome of `conn.Write`, the texts of the status codes, the
date and the order in which Go ranges over a map are given by an `Env`.
-/

namespace Nbio.Http

open Nbio.Go

/-- A buffer of the memory pool and the bytes of its slice. -/
structure Buf where
  id : Nat
  data : Bytes
deriving DecidableEq, Repr

inductive MemOp where
  | malloc (id size : Nat)
  | append (id : Nat)
  | reslice (id : Nat)
  | send (id : Nat)
  | free (id : Nat)
deriving DecidableEq, Repr

/-- What the response writer finds in its surroundings. -/
structure Env where
  /-- The bytes found in the buffer with this identity. -/
  contents : Nat → Nat → UInt8
  /-- The outcome of the `n`-th `conn.Write` if it fails: the count and the error. -/
  connErr : Nat → Option (Int × Bytes)
  /-- `http.StatusText`. -/
  statusText : Int → Bytes
  date : Bytes
  /-- The order in which a loop ranges over a header. -/
  rangeHeader : Header → Header
  /-- The order in which a loop ranges over the trailer. -/
  rangeTrailer : List (Bytes × Bytes) → List (Bytes × Bytes)
  rangeHeader_perm : ∀ h, (rangeHeader h).Perm h
  rangeTrailer_perm : ∀ t, (rangeTrailer t).Perm t

structure RequestInfo where
  proto : Bytes
  protoMajor : Int
  protoMinor : Int
  close : Bool
deriving DecidableEq, Repr

def RequestInfo.protoAtLeast (r : RequestInfo) (major minor : Int) : Bool :=
  r.protoMajor > major || (r.protoMajor == major && r.protoMinor ≥ minor)

structure Response where
  request : RequestInfo
  conn : Bool
  status : Bytes
  statusCode : Int
  header : Header
  trailer : List (Bytes × Bytes)
  buffer : Option Buf
  bodyBuffer : Option Buf
  contentLen : Int
  bodyWritten : Int
  chunked : Bool
  chunkChecked : Bool
  headEncoded : Bool
  hasBody : Bool
  hijacked : Bool
deriving DecidableEq, Repr

/-- `NewResponse` for a parser that has a connection. -/
def newResponse (request : RequestInfo) : Response :=
  { request := request, conn := true, status := [], statusCode := 0, header := [], trailer := [],
    buffer := none, bodyBuffer := none, contentLen := 0, bodyWritten := 0, chunked := false,
    chunkChecked := false, headEncoded := false, hasBody := false, hijacked := false }

inductive ResponseErr where
  | conn (message : Bytes)
  | parseInt (text : Bytes) (e : NumError)
  | contentLength
deriving DecidableEq, Repr

/-- A response, what it has sent (one entry for each successful `conn.Write`) and what it has
done to the memory pool. -/
structure Exchange where
  res : Response
  sent : List Bytes
  connWrites : Nat
  nextBuf : Nat
  mempool : List MemOp
deriving DecidableEq, Repr

def maxPacketSize : Nat := 65536

namespace Header

/-- `h.Set(key, value)` for a canonical key. -/
def set (h : Header) (key value : Bytes) : Header :=
  match h.lookup key with
  | none => h ++ [(key, [value])]
  | some _ => h.map fun kv => if kv.1 == key then (kv.1, [value]) else kv

/-- `len(h[key]) == 0`. -/
def lacks (h : Header) (key : Bytes) : Bool := (h.lookup key).getD [] == []

end Header

namespace Response

def writeHeader (env : Env) (res : Response) (statusCode : Int) : Response :=
  if !res.hijacked && res.statusCode == 0 && res.statusCode != statusCode then
    let status := env.statusText statusCode
    let res := if status ≠ [] then { res with status := status, statusCode := statusCode } else res
    let cl := res.header.get contentLengthHeader
    if cl ≠ [] then
      match parseInt cl 10 64 with
      | .ok v => if 0 ≤ v then res
        else { res with header := res.header.delete contentLengthHeader }
      | .error _ => { res with header := res.header.delete contentLengthHeader }
    else res
  else res

/-- The decision of `checkChunked` when the handler has not set chunking itself. -/
def fallsBackToChunking (res : Response) : Bool :=
  (res.request.protoAtLeast 1 1 && res.header.get contentLengthHeader == [] &&
    res.statusCode != 204 && res.statusCode != 304) || !res.header.lacks trailerHeader

def checkChunked (res : Response) : Response :=
  if res.chunkChecked then res
  else
    let res := { res with chunkChecked := true }
    if ((res.header.lookup transferEncodingHeader).getD []).contains (ascii "chunked") then
      { res with chunked := true, header := res.header.delete contentLengthHeader }
    else if res.chunked || res.fallsBackToChunking then
      { res with
        chunked := true
        header := (res.header.set transferEncodingHeader (ascii "chunked")).delete
          contentLengthHeader }
    else res

/-- `contentLength`: the value, the error and the response with the value remembered. -/
def contentLength (res : Response) : Except ResponseErr Int × Response :=
  if 0 < res.contentLen then (.ok res.contentLen, res)
  else
    let cl := res.header.get contentLengthHeader
    if cl = [] then (.ok 0, res)
    else
      match parseInt cl 10 64 with
      | .ok v => (.ok v, { res with contentLen := v })
      | .error e => (.error (.parseInt cl e), res)

/-! ## The head -/

/-- A conversion of an integer to `byte`. -/
def byte (n : Int) : UInt8 := UInt8.ofNat (n % 256).toNat

def statusLine (res : Response) : Bytes :=
  res.request.proto ++
    [SP, 48 + byte (res.statusCode.tdiv 100), 48 + byte (res.statusCode.tmod 100) / 10,
      48 + byte (res.statusCode.tmod 10), SP] ++ res.status ++ crlf

/-- The digits of a number in decimal, as `strconv.FormatInt` gives them. -/
def decimal (n : Nat) : Bytes := ascii (toString n)

/-- The lines that `eoncodeHead` adds of itself. -/
def fixedLines (env : Env) (res : Response) : Bytes :=
  (if res.hasBody && res.header.lacks (ascii "Content-Type") then
    ascii "Content-Type: text/plain; charset=utf-8\r\n" else []) ++
  (if !res.chunked && res.header.lacks contentLengthHeader then
    ascii "Content-Length: " ++
      (if res.hasBody then decimal ((res.bodyBuffer.map fun b => b.data.length).getD 0)
        else ascii "0") ++ crlf
    else []) ++
  (if res.request.close && res.header.lacks (ascii "Connection") then
    ascii "Connection: close\r\n" else []) ++
  (if res.header.lacks (ascii "Date") then ascii "Date: " ++ env.date ++ crlf else [])

def trailerNames (res : Response) : List Bytes :=
  ((res.header.lookup trailerHeader).getD []).eraseDups

def headerLines (env : Env) (res : Response) : Bytes :=
  (env.rangeHeader res.header).flatMap fun kv =>
    if res.trailerNames.contains kv.1 then []
    else kv.2.flatMap fun v => kv.1 ++ [COLON, SP] ++ v ++ crlf

/-- The head as `eoncodeHead` appends it to its buffer. -/
def headBlock (env : Env) (res : Response) : Bytes :=
  res.statusLine ++ res.fixedLines env ++ res.headerLines env ++ crlf

/-- The trailers with the values their headers have when the head is encoded. -/
def trailers (res : Response) : List (Bytes × Bytes) :=
  res.trailerNames.map fun k =>
    (k, if res.header.lacks k then [] else res.header.get (canonicalHeaderKey k))

def numMap : Bytes := ascii "0123456789abcdef"

/-- The loop of `formatInt`, which fills `intFormatBuf` from its end; `i` digits have room. -/
def formatLoop (base : Nat) : Nat → Nat → Bytes → Bytes
  | 0, _, acc => acc
  | i + 1, n, acc =>
    let acc := numMap.getD (n % base) 0 :: acc
    if n / base = 0 then acc else formatLoop base i (n / base) acc

def formatInt (n base : Nat) : Bytes :=
  if 0x7FFFFFFF < n then [] else formatLoop base 10 n []

end Response

/-! ## Calls -/

namespace Exchange

variable (env : Env)

/-- `mempool.Malloc`: a slice of the length asked for, whatever the memory holds. -/
def malloc (x : Exchange) (size : Nat) : Buf × Exchange :=
  ({ id := x.nextBuf, data := (List.range size).map (env.contents x.nextBuf) },
    { x with nextBuf := x.nextBuf + 1, mempool := x.mempool ++ [.malloc x.nextBuf size] })

/-- `mempool.Append` and `mempool.AppendString`. -/
def append (x : Exchange) (b : Buf) (more : Bytes) : Buf × Exchange :=
  ({ b with data := b.data ++ more }, { x with mempool := x.mempool ++ [.append b.id] })

def appends (x : Exchange) (b : Buf) : List Bytes → Buf × Exchange
  | [] => (b, x)
  | more :: rest => (x.append b more).2.appends (x.append b more).1 rest

/-- `*b = (*b)[0:0]`. -/
def reslice (x : Exchange) (b : Buf) : Buf × Exchange :=
  ({ b with data := [] }, { x with mempool := x.mempool ++ [.reslice b.id] })

/-- `mempool.Free`. -/
def free (x : Exchange) (b : Buf) : Exchange := { x with mempool := x.mempool ++ [.free b.id] }

/-- `conn.Write`: the count and the error. -/
def connWrite (x : Exchange) (data : Bytes) : (Int × Option ResponseErr) × Exchange :=
  match env.connErr x.connWrites with
  | some (n, message) => ((n, some (.conn message)), { x with connWrites := x.connWrites + 1 })
  | none =>
    ((data.length, none), { x with connWrites := x.connWrites + 1, sent := x.sent ++ [data] })

def send (x : Exchange) (b : Buf) : (Int × Option ResponseErr) × Exchange :=
  connWrite env { x with mempool := x.mempool ++ [.send b.id] } b.data

def setBuffer (x : Exchange) (b : Option Buf) : Exchange :=
  { x with res := { x.res with buffer := b } }

def setBodyBuffer (x : Exchange) (b : Option Buf) : Exchange :=
  { x with res := { x.res with bodyBuffer := b } }

def eoncodeHead (x : Exchange) : Exchange :=
  if x.res.headEncoded then x
  else
    let (pdata, x) := x.malloc env 1024
    let (pdata, x) := x.reslice pdata
    let (pdata, x) := x.append pdata (x.res.headBlock env)
    { x with
      res := { x.res with
        headEncoded := true, trailer := x.res.trailers, buffer := some pdata } }

/-- The end of `writeChunk`: append the data and send the buffer, or keep it if it is
short. -/
def sendChunk (x : Exchange) (b : Buf) (data : Bytes) : (Int × Option ResponseErr) × Exchange :=
  let (b, x) := x.appends b [data, crlf]
  if b.data.length < maxPacketSize then ((data.length, none), x.setBuffer (some b))
  else
    let (r, x) := x.send env b
    let x := x.free b
    match r.2 with
    | some e => ((0, some e), x)
    | none => ((data.length, none), x)

/-- `writeChunk` once the head is encoded, with the buffer taken out of the response. -/
def putChunk (x : Exchange) (pbuf : Option Buf) (data : Bytes) :
    (Int × Option ResponseErr) × Exchange :=
  let lenStr := Response.formatInt data.length 16
  match pbuf with
  | some b =>
    if lenStr.length + data.length + 4 + b.data.length < maxPacketSize then
      let (b, x) := x.appends b [lenStr, crlf, data, crlf]
      ((data.length, none), x.setBuffer (some b))
    else
      let (b, x) := x.appends b [lenStr, crlf]
      let (r, x) := x.send env b
      let x := x.free b
      match r.2 with
      | some e => ((0, some e), x)
      | none =>
        -- the buffer goes on being used after it has been freed
        let (b, x) := x.reslice b
        x.sendChunk env b data
  | none =>
    let totalSize := lenStr.length + data.length + 4
    let (b, x) := x.malloc env totalSize
    if totalSize < maxPacketSize then
      -- here the new buffer is not cut to length zero
      let (b, x) := x.appends b [lenStr, crlf, data, crlf]
      ((data.length, none), x.setBuffer (some b))
    else
      let (b, x) := x.reslice b
      let (b, x) := x.appends b [lenStr, crlf]
      x.sendChunk env b data

def writeChunk (x : Exchange) (data : Bytes) : (Int × Option ResponseErr) × Exchange :=
  let x := x.eoncodeHead env
  (x.setBuffer none).putChunk env x.res.buffer data

def addWritten (x : Exchange) (l : Int) : Exchange :=
  { x with res := { x.res with bodyWritten := x.res.bodyWritten + l } }

/-- The end of `Write`: append the data to the body buffer, and send that if it is full.  The
count is then that of the buffer sent. -/
def cacheBody (x : Exchange) (cl : Int) (b : Buf) (data : Bytes) :
    (Int × Option ResponseErr) × Exchange :=
  let (b, x) := (x.addWritten data.length).append b data
  if 0 < cl ∧ maxPacketSize ≤ b.data.length then
    let (r, x) := x.send env b
    match r.2 with
    | some e => ((r.1, some e), (x.free b).setBodyBuffer none)
    | none =>
      let (b, x) := x.reslice b
      (r, x.setBodyBuffer (some b))
  else ((data.length, none), x.setBodyBuffer (some b))

/-- The body of `Write` behind the label `APPEND_BODY`; `cl` is the announced length. -/
def appendBody (x : Exchange) (cl : Int) (data : Bytes) : (Int × Option ResponseErr) × Exchange :=
  let l : Int := data.length
  match x.res.bodyBuffer with
  | none =>
    if 0 < cl ∧ maxPacketSize ≤ data.length then (x.addWritten l).connWrite env data
    else
      let (b, x) := x.malloc env data.length
      let (b, x) := x.reslice b
      x.cacheBody env cl b data
  | some b =>
    if 0 < cl ∧ maxPacketSize < b.data.length + data.length then
      let sendCached : Option ResponseErr × Buf × Exchange :=
        if 0 < b.data.length then
          let (r, x) := x.send env b
          let (b, x) := x.reslice b
          (r.2, b, x)
        else (none, b, x)
      match sendCached with
      | (some e, b, x) => ((0, some e), (x.free b).setBodyBuffer none)
      | (none, b, x) =>
        if maxPacketSize ≤ data.length then
          (((x.addWritten l).free b).setBodyBuffer none).connWrite env data
        else x.cacheBody env cl b data
    else x.cacheBody env cl b data

/-- `Write`: the count and the error. -/
def write (x : Exchange) (data : Bytes) : (Int × Option ResponseErr) × Exchange :=
  if data = [] ∨ x.res.conn = false then ((0, none), x)
  else
    let x := { x with
      res := { (x.res.writeHeader env 200).checkChunked with hasBody := true } }
    if x.res.chunked then x.writeChunk env data
    else
      match x.res.contentLength with
      | (.error e, res) => ((0, some e), { x with res := res })
      | (.ok cl, res) =>
        let x := { x with res := res }
        if 0 < cl ∧ cl < x.res.bodyWritten + data.length then ((0, some .contentLength), x)
        else if 0 < cl then
          let x := x.eoncodeHead env
          let pbuf := x.res.buffer
          let x := x.setBuffer none
          match pbuf with
          | none => x.appendBody env cl data
          | some b =>
            if b.data.length + data.length < maxPacketSize then
              (x.setBodyBuffer (some b)).appendBody env cl data
            else
              let (r, x) := x.send env b
              let x := x.free b
              match r.2 with
              | some e => ((0, some e), x)
              | none => x.appendBody env cl data
        else x.appendBody env cl data

/-- One of the two parts of `Flush`: send a buffer that holds something and keep it. -/
def flushBuf (x : Exchange) (b : Option Buf) : Option Buf × Exchange :=
  match b with
  | none => (none, x)
  | some b =>
    if 0 < b.data.length then
      let (r, x) := x.send env b
      match r.2 with
      | some _ => (none, x.free b)
      | none =>
        let (b, x) := x.reslice b
        (some b, x)
    else (some b, x)

/-- `Flush` once the head is encoded. -/
def flushBufs (x : Exchange) : Exchange :=
  let (b, x) := x.flushBuf env x.res.buffer
  let x := x.setBuffer b
  let (b, x) := x.flushBuf env x.res.bodyBuffer
  x.setBodyBuffer b

def Flush (x : Exchange) : Exchange :=
  if x.res.hijacked ∨ x.res.conn = false then x
  else
    let x := { x with res := (x.res.writeHeader env 200).checkChunked }
    (x.eoncodeHead env).flushBufs env

/-- The end of `flush` of a response that is not chunked: send the body buffer. -/
def flushBody (x : Exchange) : Option ResponseErr × Exchange :=
  match x.res.bodyBuffer with
  | none => (none, x)
  | some body =>
    if 0 < body.data.length then
      let (r, x) := x.send env body
      (r.2, (x.free body).setBodyBuffer none)
    else (none, x)

/-- Send the buffer that holds the head, or what is left of it, and then the body buffer. -/
def flushHead (x : Exchange) (b : Buf) : Option ResponseErr × Exchange :=
  let (r, x) := x.send env b
  let x := (x.free b).setBuffer none
  match r.2 with
  | some e => (some e, x)
  | none => x.flushBody env

/-- `flush` of a response that is not chunked. -/
def flushPlain (x : Exchange) : Option ResponseErr × Exchange :=
  match x.res.buffer with
  | none => x.flushBody env
  | some b =>
    match x.res.bodyBuffer with
    | some body =>
      if 0 < body.data.length then
        if maxPacketSize < b.data.length + body.data.length then
          let (r, x) := x.send env b
          let x := (x.free b).setBuffer none
          match r.2 with
          | some e => (some e, (x.free body).setBodyBuffer none)
          | none => (x.setBodyBuffer none).flushHead env body
        else
          let (b, x) := x.append b body.data
          let x := (x.free body).setBodyBuffer none
          x.flushHead env b
      else x.flushHead env b
    | none => x.flushHead env b

/-- `flush` of a chunked response: the last chunk and the trailer. -/
def flushChunked (x : Exchange) : Option ResponseErr × Exchange :=
  let pdata := x.res.buffer
  let x := x.setBuffer none
  let (b, x) :=
    if x.res.trailer = [] then
      let (b, x) := match pdata with
        | some b => (b, x)
        | none => x.malloc env 0
      x.append b (ascii "0\r\n\r\n")
    else
      let (b, x) := match pdata with
        | some b => (b, x)
        | none =>
          let (b, x) := x.malloc env 512
          x.reslice b
      let (b, x) := x.append b (ascii "0\r\n")
      let (b, x) := x.appends b ((env.rangeTrailer x.res.trailer).map fun kv =>
        kv.1 ++ [COLON, SP] ++ kv.2 ++ crlf)
      x.append b crlf
  let (r, x) := x.send env b
  (r.2, x.free b)

def flush (x : Exchange) : Option ResponseErr × Exchange :=
  if x.res.chunked then x.flushChunked env else x.flushPlain env

/-- The part of `flushResponse` that sends the response. -/
def flushResponse (x : Exchange) : Option ResponseErr × Exchange :=
  if x.res.conn = false ∨ x.res.hijacked then (none, x)
  else
    let x := { x with res := (x.res.writeHeader env 200).checkChunked }
    (x.eoncodeHead env).flush env

/-! ## `ReadFrom` and the end of a response -/

/-- The reader that `ReadFrom` is given, and what the connection makes of it. -/
structure Source where
  disableSendfile : Bool
  /-- The bytes that a `LimitedReader` still allows. -/
  limit : Option Int
  /-- What `Sendfile` returns, if the reader is a file and the connection has that method. -/
  sendfile : Option (Int × Option Bytes)
  /-- What the reader gives to `io.Copy`, one read after the other. -/
  pieces : List Bytes
deriving DecidableEq, Repr

/-- `io.Copy` to the connection: the count and the error. -/
def copy (x : Exchange) : List Bytes → (Int × Option ResponseErr) × Exchange
  | [] => ((0, none), x)
  | piece :: pieces =>
    let (r, x) := x.connWrite env piece
    match r.2 with
    | some e => ((r.1, some e), x)
    | none =>
      let (rest, x) := x.copy pieces
      ((r.1 + rest.1, rest.2), x)

/-- `ReadFrom`; `none` is a panic, of which the caller may recover.  The bytes that `Sendfile` takes
from the file are not recorded. -/
def readFrom (x : Exchange) (r : Source) : Option (Int × Option ResponseErr) × Exchange :=
  if x.res.conn = false then (some (0, none), x)
  else
    let x := { x with res := { x.res with hasBody := true } }.eoncodeHead env
    match x.res.buffer with
    | none => (none, x)
    | some b =>
      let (w, x) := x.send env b
      let x := (x.free b).setBuffer none
      match w.2 with
      | some e => (some (0, some e), x)
      | none =>
        if !r.disableSendfile && r.limit.any (· ≤ 0) then (some (0, none), x)
        else
          match if r.disableSendfile then none else r.sendfile with
          | some (n, err) => (some (n, err.map .conn), x)
          | none =>
            let (w, x) := x.copy env r.pieces
            (some w, x)

def emptyResponse : Response :=
  { newResponse { proto := [], protoMajor := 0, protoMinor := 0, close := false }
    with conn := false }

def releaseResponse (x : Exchange) : Exchange :=
  let x := match x.res.buffer with
    | some b => x.free b
    | none => x
  let x := match x.res.bodyBuffer with
    | some b => x.free b
    | none => x
  { x with res := emptyResponse }

/-- `ServerProcessor.flushResponse` as a whole. -/
def finishResponse (x : Exchange) : Exchange :=
  if x.res.conn = false then x else (x.flushResponse env).2.releaseResponse

end Exchange

end Nbio.Http
