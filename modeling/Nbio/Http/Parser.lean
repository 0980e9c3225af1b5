import Nbio.Go.Strconv
import Nbio.Http.Table

/-!
# The HTTP parser

`Parser.Parse` reads one byte at a time, with `start` the index where the piece of data
that is still of use begins and `i` the index of the current byte.  What is still of use
when the data ends is kept in `bytesCached` and prepended to the data of the next call.

The byte states of the loop are `onByte`: every one of them reads the data only through
the slice `data[start:i]` and moves `start` to `i` or to `i + 1` or leaves it.  The two
body states, which look ahead in the data, are `onBody`.
-/

namespace Nbio.Http

open Nbio.Go

inductive State where
  | close
  | methodBefore | method
  | pathBefore | path | protoBefore | proto | protoLF
  | clientProtoBefore | clientProto | statusCodeBefore | statusCode | statusBefore | status
  | statusLF
  | headerKeyBefore | headerValueLF | headerKey
  | headerValueBefore | headerValue
  | bodyContentLength
  | headerOverLF | bodyChunkSizeBefore | bodyChunkSize | bodyChunkSizeLF
  | bodyChunkData | bodyChunkDataCR | bodyChunkDataLF
  | bodyTrailerHeaderValueLF | bodyTrailerHeaderKeyBefore | bodyTrailerHeaderKey
  | bodyTrailerHeaderValueBefore | bodyTrailerHeaderValue
  | tailCR | tailLF
deriving DecidableEq, Repr

/-- The errors `Parse` returns.  Those the code builds with `fmt.Errorf` carry what it
formats; `processor` is an error a callback returned. -/
inductive Err where
  | closed
  | tooLong
  | invalidMethod
  | invalidRequestURI
  | invalidHTTPStatusCode
  | invalidHTTPStatus
  | lfExpected
  | crExpected
  | invalidCharInHeader
  | invalidChunkSize
  | trailerExpected
  | unexpectedContentLength
  | atoi (text : Bytes) (e : NumError)
  | chunkSizeParse (text : Bytes) (e : NumError)
  | chunkSizeNegative
  | tooManyTransferEncodings (raw : List Bytes)
  | unsupportedTransferEncoding (raw : Bytes)
  | badContentLength (text : Bytes)
  | contentLengthNegative (l : Int)
  | badTrailerKey (key : Bytes)
  | invalidTrailer (key : Bytes)
  | processor (message : Bytes)
deriving DecidableEq, Repr

/-- The calls a parser makes on its `Processor`, and on the `ParserCloser` once one has
been set. -/
inductive Callback where
  | onMethod (method : Bytes)
  | onURL (uri : Bytes)
  | onProto (proto : Bytes)
  | onStatus (code : Int) (status : Bytes)
  | onHeader (key value : Bytes)
  | onContentLength (contentLength : Int)
  | onBody (data : Bytes)
  | onTrailerHeader (key value : Bytes)
  | onComplete
  | clean
  | closerParse (udata : Bytes)
deriving DecidableEq, Repr

/-- The calls made so far, oldest first. -/
abbrev Log := List Callback

/-- A `Processor` whose results depend only on the calls it has received: `result` gives
the error the last of them returns (of the calls that return one), `closer` whether it
has set the parser's `ParserCloser`. -/
structure Processor where
  result : Log → Option Bytes
  closer : Log → Bool

def Processor.accept : Processor := { result := fun _ => none, closer := fun _ => false }

/-- An `http.Header`; a nil map and an empty one are the same list. -/
abbrev Header := List (Bytes × List Bytes)

namespace Header

/-- The index expression `h[key]`. -/
def lookup (h : Header) (key : Bytes) : Option (List Bytes) :=
  (h.find? fun kv => kv.1 == key).map Prod.snd

/-- `delete(h, key)`. -/
def delete (h : Header) (key : Bytes) : Header := h.filter fun kv => kv.1 != key

/-- `h.Add(key, value)` for a canonical key. -/
def add (h : Header) (key value : Bytes) : Header :=
  match h.lookup key with
  | none => h ++ [(key, [value])]
  | some _ => h.map fun kv => if kv.1 == key then (kv.1, kv.2 ++ [value]) else kv

/-- `h.Get(key)` for a canonical key. -/
def get (h : Header) (key : Bytes) : Bytes :=
  match h.lookup key with
  | some (v :: _) => v
  | _ => []

theorem lookup_cons (kv : Bytes × List Bytes) (h : Header) (key : Bytes) :
    lookup (kv :: h) key = if kv.1 = key then some kv.2 else h.lookup key := by
  unfold lookup
  by_cases hk : kv.1 = key
  · simp [hk]
  · simp [hk]

theorem lookup_append_single (h : Header) (kv : Bytes × List Bytes) (key : Bytes) :
    lookup (h ++ [kv]) key = (h.lookup key).or (if kv.1 = key then some kv.2 else none) := by
  induction h with
  | nil => rw [List.nil_append, lookup_cons]; rfl
  | cons kv' h ih =>
    rw [List.cons_append, lookup_cons, lookup_cons, ih]
    split <;> rfl

theorem lookup_map (f : List Bytes → List Bytes) (h : Header) (k key : Bytes) :
    lookup (h.map fun kv => if kv.1 == k then (kv.1, f kv.2) else kv) key =
      if key = k then (h.lookup key).map f else h.lookup key := by
  induction h with
  | nil => simp [lookup]
  | cons kv h ih =>
    obtain ⟨k', vs⟩ := kv
    rw [List.map_cons, lookup_cons, lookup_cons, ih]
    by_cases hk : k' = k
    · subst hk
      by_cases hkey : k' = key
      · simp [hkey]
      · simp [hkey]
    · by_cases hkey : k' = key
      · subst hkey
        simp [hk]
      · simp [hk, hkey]

theorem lookup_add (h : Header) (k v key : Bytes) :
    (h.add k v).lookup key =
      if key = k then some ((h.lookup k).getD [] ++ [v]) else h.lookup key := by
  unfold add
  split
  · next hnone =>
    rw [lookup_append_single]
    by_cases hkey : key = k
    · subst hkey
      simp [hnone]
    · simp [hkey, Ne.symm hkey]
  · next vs hsome =>
    rw [lookup_map (· ++ [v])]
    by_cases hkey : key = k
    · subst hkey
      simp [hsome]
    · simp [hkey]

theorem lookup_delete (h : Header) (k key : Bytes) :
    (h.delete k).lookup key = if key = k then none else h.lookup key := by
  induction h with
  | nil => simp [delete, lookup]
  | cons kv h ih =>
    obtain ⟨k', vs⟩ := kv
    unfold delete at ih ⊢
    by_cases hk : k' = k
    · subst hk
      by_cases hkey : key = k'
      · subst hkey
        simpa using ih
      · simp [ih, lookup_cons, Ne.symm hkey]
    · by_cases hkey : key = k
      · subst hkey
        simp [hk, ih, lookup_cons]
      · simp [hk, hkey, ih, lookup_cons]

end Header

def transferEncodingHeader : Bytes := ascii "Transfer-Encoding"

def trailerHeader : Bytes := ascii "Trailer"

def contentLengthHeader : Bytes := ascii "Content-Length"

/-- The fields of a parser that the states read and write. -/
structure Fields where
  proto : Bytes
  statusCode : Int
  status : Bytes
  headerKey : Bytes
  headerValue : Bytes
  header : Header
  /-- The keys of the map `trailer`, whose values are all nil. -/
  trailer : List Bytes
  contentLength : Int
  chunkSize : Int
  state : State
  chunked : Bool
  isClient : Bool
  headerExists : Bool
  parserCloser : Bool
deriving DecidableEq, Repr

structure Parser extends Fields where
  bytesCached : Option Bytes
  initialReadDeadlinePending : Bool
deriving DecidableEq, Repr

def startState (isClient : Bool) : State :=
  if isClient then .clientProtoBefore else .methodBefore

def newFields (isClient : Bool) : Fields :=
  { proto := [], statusCode := 0, status := [], headerKey := [], headerValue := [],
    header := [], trailer := [], contentLength := 0, chunkSize := 0,
    state := startState isClient, chunked := false, isClient := isClient,
    headerExists := false, parserCloser := false }

def newParser (isClient : Bool) : Parser :=
  { toFields := newFields isClient, bytesCached := none, initialReadDeadlinePending := false }

def parseAndValidateChunkSize (originalStr : Bytes) : Except Err Int :=
  match parseInt originalStr 16 63 with
  | .error e => .error (.chunkSizeParse originalStr e)
  | .ok chunkSize =>
    -- The test against `MaxInt` that follows in the source cannot fail at 63 bits.
    if chunkSize < 0 then .error .chunkSizeNegative else .ok chunkSize

namespace Fields

def nextState (p : Fields) (state : State) : Fields :=
  match p.state with
  | .close => p
  | _ => { p with state := state }

/-- `parseTransferEncoding`: the fields afterwards and the error, if any. -/
def parseTransferEncoding (p : Fields) : Fields × Option Err :=
  match p.header.lookup transferEncodingHeader with
  | none => (p, none)
  | some raw =>
    let p := { p with header := p.header.delete transferEncodingHeader }
    match raw with
    | [enc] =>
      if toLower (trimString enc) = ascii "chunked" then
        ({ p with header := p.header.delete contentLengthHeader, chunked := true }, none)
      else (p, some (.unsupportedTransferEncoding enc))
    | raw => (p, some (.tooManyTransferEncodings raw))

/-- The loop that cuts the spaces off the end of a `Content-Length` value; a value of
spaces only is left as it is. -/
def cutSpaces (cl : Bytes) : Bytes :=
  if cl.all (· == 32) then cl else cl.rdropWhile (· == 32)

def parseContentLength (p : Fields) : Fields × Option Err :=
  let cl := p.header.get contentLengthHeader
  if cl = [] then ({ p with contentLength := -1 }, none)
  else if p.chunked then (p, some .unexpectedContentLength)
  else
    let cl := cutSpaces cl
    match parseInt cl 10 63 with
    | .error _ => (p, some (.badContentLength cl))
    | .ok l =>
      -- As for a chunk size, the test against `MaxInt` cannot fail at 63 bits.
      if l < 0 then (p, some (.contentLengthNegative l))
      else ({ p with contentLength := l }, none)

/-- A key that may not be announced as a trailer. -/
def isFramingKey (key : Bytes) : Bool :=
  key == transferEncodingHeader || key == trailerHeader || key == contentLengthHeader

/-- `trailer[key] = nil`, with the check on the key. -/
def addTrailer (trailer : List Bytes) (key : Bytes) : Except Err (List Bytes) :=
  if isFramingKey key then .error (.badTrailerKey key)
  else if trailer.contains key then .ok trailer
  else .ok (trailer ++ [key])

/-- The names that one value of the `Trailer` header announces. -/
def trailerNames (key : Bytes) : List Bytes :=
  let key := trimString key
  if key = [] then []
  else if key.contains 44 then
    (((key.splitOn 44).map trimString).filter (· ≠ [])).map canonicalHeaderKey
  else [canonicalHeaderKey key]

def parseTrailer (p : Fields) : Fields × Option Err :=
  if !p.chunked then (p, none)
  else
    match p.header.lookup trailerHeader with
    | none => (p, none)
    | some trailers =>
      let p := { p with header := p.header.delete trailerHeader }
      match (trailers.flatMap trailerNames).foldlM addTrailer [] with
      | .error e => (p, some e)
      | .ok [] => (p, none)
      | .ok trailer => ({ p with trailer := trailer }, none)

/-- `handleMessage`; `closer` is whether `OnComplete` has set the `ParserCloser`. -/
def handleMessage (p : Fields) (closer : Bool) : Fields :=
  { p with
    parserCloser := p.parserCloser || closer, chunked := false, header := [],
    trailer := [] }.nextState (startState p.isClient)

/-- The end of a header line: keep the value of a framing header, forget the line. -/
def endHeader (p : Fields) (value : Bytes) : Fields :=
  { p with
    header := if isFramingKey p.headerKey then p.header.add p.headerKey value else p.header
    headerKey := [], headerValue := [] }.nextState .headerValueLF

def endTrailerHeader (p : Fields) : Fields :=
  { p with headerKey := [], headerValue := [] }.nextState .bodyTrailerHeaderValueLF

end Fields

/-! ## The byte states -/

/-- Where the loop moves `start` after the byte at `i`: nowhere, to `i`, or to `i + 1`. -/
inductive Start where
  | keep | here | after
deriving DecidableEq, Repr

/-- What one byte leads to: the next iteration, an error that `Parse` returns, or a
panic. -/
inductive Act where
  | go (p : Fields) (log : Log) (start : Start)
  | fail (p : Fields) (log : Log) (e : Err)
  | panic (p : Fields) (log : Log)
deriving DecidableEq, Repr

abbrev SP : UInt8 := 32
abbrev CR : UInt8 := 13
abbrev LF : UInt8 := 10
abbrev COLON : UInt8 := 58

abbrev crlf : Bytes := [CR, LF]

theorem isToken_ne {c : UInt8} (h : isToken c = true) : c ≠ SP ∧ c ≠ COLON ∧ c ≠ CR ∧ c ≠ LF := by
  have hall : ∀ c ∈ tokenChars, c ≠ SP ∧ c ≠ COLON ∧ c ≠ CR ∧ c ≠ LF := by decide +kernel
  exact hall c (List.contains_iff_mem.1 h)

/-- A field the loop fills from the data the first time it can: its value if it has one,
else the slice. -/
def orSlice (old : Bytes) (tok : Option Bytes) : Option Bytes :=
  if old = [] then tok else some old

/-- Go on with the value of a slice expression, which may panic. -/
def withSlice (p : Fields) (log : Log) (tok : Option Bytes) (k : Bytes → Act) : Act :=
  match tok with
  | none => .panic p log
  | some t => k t

/-- Go on with the chunk size, parsed from the slice if it is not known yet. -/
def withChunkSize (p : Fields) (log : Log) (tok : Option Bytes) (k : Fields → Act) : Act :=
  if p.chunkSize < 0 then
    withSlice p log tok fun t =>
      match parseAndValidateChunkSize t with
      | .error e => .fail p log e
      | .ok chunkSize => k { p with chunkSize := chunkSize }
  else k p

/-- Make a call that can return an error. -/
def Processor.call (proc : Processor) (onErr p : Fields) (log : Log) (cb : Callback)
    (k : Fields → Log → Act) : Act :=
  match proc.result (log ++ [cb]) with
  | some message => .fail onErr (log ++ [cb]) (.processor message)
  | none => k p (log ++ [cb])

/-- The blank line: decide the framing of the body from the headers. -/
def endHeaders (p : Fields) (log : Log) : Act :=
  match p.parseTransferEncoding with
  | (p, some e) => .fail p log e
  | (p, none) =>
    match p.parseContentLength with
    | (p, some e) => .fail p log e
    | (p, none) =>
      let log := log ++ [.onContentLength p.contentLength]
      match p.parseTrailer with
      | (p, some e) => .fail p log e
      | (p, none) => .go (p.nextState .headerOverLF) log .after

def endMessage (proc : Processor) (p : Fields) (log : Log) : Fields × Log :=
  (p.handleMessage (proc.closer (log ++ [.onComplete])), log ++ [.onComplete])

/-- One iteration of the loop in a byte state; `tok` is `data[start:i]`. -/
def onByte (proc : Processor) (p : Fields) (log : Log) (tok : Option Bytes) (c : UInt8) : Act :=
  match p.state with
  | .close => .fail p log .closed
  | .methodBefore =>
    if isValidMethodChar c then .go (p.nextState .method) log .here
    else .fail p log .invalidMethod
  | .method =>
    if c = SP then
      withSlice p log tok fun t =>
        let method := toUpper t
        if !isValidMethod method then .fail p log .invalidMethod
        else .go (p.nextState .pathBefore) (log ++ [.onMethod method]) .after
    else if !isAlpha c then .fail p log .invalidMethod
    else .go p log .keep
  | .pathBefore =>
    if c = 47 ∨ c = 42 then .go (p.nextState .path) log .here
    else if c = SP then .go p log .keep
    else .fail p log .invalidRequestURI
  | .path =>
    if c = SP then
      withSlice p log tok fun uri =>
        proc.call p p log (.onURL uri) fun p log => .go (p.nextState .protoBefore) log .after
    else .go p log .keep
  | .protoBefore =>
    if c ≠ SP then .go (p.nextState .proto) log .here else .go p log .keep
  | .proto =>
    if c = SP then
      withSlice p log (orSlice p.proto tok) fun proto => .go { p with proto := proto } log .keep
    else if c = CR then
      withSlice p log (orSlice p.proto tok) fun proto =>
        let p := { p with proto := [] }
        proc.call p p log (.onProto proto) fun p log => .go (p.nextState .protoLF) log .keep
    else .go p log .keep
  | .clientProtoBefore =>
    if c = 72 then .go (p.nextState .clientProto) log .here else .fail p log .invalidMethod
  | .clientProto =>
    if c = SP then
      withSlice p log (orSlice p.proto tok) fun proto =>
        let p := { p with proto := [] }
        proc.call p p log (.onProto proto) fun p log =>
          .go (p.nextState .statusCodeBefore) log .keep
    else .go p log .keep
  | .statusCodeBefore =>
    if c = SP then .fail p log .invalidHTTPStatusCode
    else if isNum c then .go (p.nextState .statusCode) log .here
    else .go p log .keep
  | .statusCode =>
    if c = SP then
      withSlice p log tok fun cs =>
        match atoi cs with
        | .error e => .fail p log (.atoi cs e)
        | .ok code => .go ({ p with statusCode := code }.nextState .statusBefore) log .keep
    else if !isNum c then .fail p log .invalidHTTPStatusCode
    else .go p log .keep
  | .statusBefore =>
    if c = SP then .fail p log .invalidHTTPStatus
    else if isAlpha c then .go (p.nextState .status) log .here
    else .go p log .keep
  | .status =>
    if c = SP then
      withSlice p log (orSlice p.status tok) fun st => .go { p with status := st } log .keep
    else if c = CR then
      withSlice p log (orSlice p.status tok) fun st =>
        .go ({ p with statusCode := 0, status := [] }.nextState .statusLF)
          (log ++ [.onStatus p.statusCode st]) .keep
    else .go p log .keep
  | .statusLF =>
    if c = LF then .go (p.nextState .headerKeyBefore) log .keep else .fail p log .lfExpected
  | .protoLF =>
    if c = LF then .go (p.nextState .headerKeyBefore) log .after else .fail p log .lfExpected
  | .headerValueLF =>
    if c = LF then .go (p.nextState .headerKeyBefore) log .after else .fail p log .lfExpected
  | .headerKeyBefore =>
    if c = SP then
      if !p.headerExists then .fail p log .invalidCharInHeader else .go p log .keep
    else if c = CR then endHeaders p log
    else if c = LF then .fail p log .invalidCharInHeader
    else if isToken c then
      .go { p.nextState .headerKey with headerExists := true } log .here
    else .fail p log .invalidCharInHeader
  | .headerKey =>
    if c = SP then
      withSlice p log (orSlice p.headerKey (tok.map canonicalHeaderKey)) fun key =>
        .go { p with headerKey := key } log .keep
    else if c = COLON then
      withSlice p log (orSlice p.headerKey (tok.map canonicalHeaderKey)) fun key =>
        .go ({ p with headerKey := key }.nextState .headerValueBefore) log .after
    else if c = CR ∨ c = LF then .fail p log .invalidCharInHeader
    else if !isToken c then .fail p log .invalidCharInHeader
    else .go p log .keep
  | .headerValueBefore =>
    if c = SP then .go p log .keep
    else if c = CR then
      withSlice p log (orSlice p.headerValue tok) fun value =>
        .go (p.endHeader value) (log ++ [.onHeader p.headerKey value]) .after
    else if c = LF then .fail p log .invalidCharInHeader
    else .go (p.nextState .headerValue) log .here
  | .headerValue =>
    if c = CR then
      withSlice p log (orSlice p.headerValue tok) fun value =>
        .go (p.endHeader value) (log ++ [.onHeader p.headerKey value]) .after
    else if c = LF then .fail p log .invalidCharInHeader
    else .go p log .keep
  | .headerOverLF =>
    if c = LF then
      let p := { p with headerExists := false }
      if p.chunked then .go (p.nextState .bodyChunkSizeBefore) log .after
      else if 0 < p.contentLength then .go (p.nextState .bodyContentLength) log .after
      else .go (endMessage proc p log).1 (endMessage proc p log).2 .after
    else .fail p log .lfExpected
  | .bodyChunkSizeBefore =>
    if isHex c then .go ({ p with chunkSize := -1 }.nextState .bodyChunkSize) log .here
    else .fail p log .invalidChunkSize
  | .bodyChunkSize =>
    if c = SP then withChunkSize p log tok fun p => .go p log .keep
    else if c = CR then
      withChunkSize p log tok fun p => .go (p.nextState .bodyChunkSizeLF) log .after
    else if !isHex c then withChunkSize p log tok fun p => .go p log .keep
    else .go p log .keep
  | .bodyChunkSizeLF =>
    if c = LF then
      if 0 < p.chunkSize then .go (p.nextState .bodyChunkData) log .after
      else if p.trailer ≠ [] then .go (p.nextState .bodyTrailerHeaderKeyBefore) log .after
      else .go (p.nextState .tailCR) log .after
    else .fail p log .lfExpected
  | .bodyChunkDataCR =>
    if c = CR then .go (p.nextState .bodyChunkDataLF) log .keep else .fail p log .crExpected
  | .bodyChunkDataLF =>
    if c = LF then .go (p.nextState .bodyChunkSizeBefore) log .keep
    else .fail p log .lfExpected
  | .bodyTrailerHeaderValueLF =>
    if c = LF then .go (p.nextState .bodyTrailerHeaderKeyBefore) log .here
    else .fail p log .lfExpected
  | .bodyTrailerHeaderKeyBefore =>
    if isToken c then .go (p.nextState .bodyTrailerHeaderKey) log .here
    else if c = CR then
      if p.trailer ≠ [] then .fail p log .trailerExpected
      else .go (p.nextState .tailLF) log .after
    else .go p log .keep
  | .bodyTrailerHeaderKey =>
    if c = SP then
      withSlice p log (orSlice p.headerKey (tok.map canonicalHeaderKey)) fun key =>
        .go { p with headerKey := key } log .keep
    else if c = COLON then
      withSlice p log (orSlice p.headerKey (tok.map canonicalHeaderKey)) fun key =>
        .go ({ p with headerKey := key }.nextState .bodyTrailerHeaderValueBefore) log .after
    else if !isToken c then .fail p log .invalidCharInHeader
    else .go p log .keep
  | .bodyTrailerHeaderValueBefore =>
    if c = SP then .go p log .keep
    else if c = CR then
      withSlice p log (orSlice p.headerValue tok) fun value =>
        .go p.endTrailerHeader (log ++ [.onTrailerHeader p.headerKey value]) .after
    else .go (p.nextState .bodyTrailerHeaderValue) log .here
  | .bodyTrailerHeaderValue =>
    if c = SP then
      withSlice p log (orSlice p.headerValue tok) fun value =>
        .go { p with headerValue := value } log .keep
    else if c = CR then
      withSlice p log (orSlice p.headerValue tok) fun value =>
        if p.trailer = [] then
          .fail { p with headerValue := value } log (.invalidTrailer p.headerKey)
        else
          .go { p with trailer := p.trailer.filter (· != p.headerKey) }.endTrailerHeader
            (log ++ [.onTrailerHeader p.headerKey value]) .after
    else .go p log .keep
  | .tailCR =>
    if c = CR then .go (p.nextState .tailLF) log .keep else .fail p log .crExpected
  | .tailLF =>
    if c = LF then .go (endMessage proc p log).1 (endMessage proc p log).2 .after
    else .fail p log .lfExpected
  -- The body states do not look at the byte: see `onBody`.
  | .bodyContentLength => .go p log .keep
  | .bodyChunkData => .go p log .keep

/-! ## The loop -/

/-- The length of the body piece a body state waits for. -/
def Fields.bodyLen (p : Fields) : Option Int :=
  match p.state with
  | .bodyContentLength => some p.contentLength
  | .bodyChunkData => some p.chunkSize
  | _ => none

/-- What follows the call of `OnBody` in a body state. -/
def endBody (proc : Processor) (p : Fields) (log : Log) : Fields × Log :=
  match p.state with
  | .bodyContentLength => endMessage proc p log
  | _ => (p.nextState .bodyChunkDataCR, log)

/-- How the loop is left: at `Exit`, by returning an error, at `UPGRADER`, or by a panic.
`stuck` is the model's count of iterations running out, which `loop_eq` excludes. -/
inductive LoopEnd where
  | exit (p : Fields) (log : Log) (start : Nat)
  | fail (p : Fields) (log : Log) (e : Err)
  | upgrade (p : Fields) (log : Log) (start : Nat)
  | panic (p : Fields) (log : Log)
  | stuck (p : Fields) (log : Log)
deriving DecidableEq, Repr

/-- One iteration of the loop: it is left, or it goes on with `start` and `i`. -/
inductive Iter where
  | next (p : Fields) (log : Log) (start i : Nat)
  | leave (e : LoopEnd)
deriving DecidableEq, Repr

def Start.apply (s : Start) (start i : Nat) : Nat :=
  match s with
  | .keep => start
  | .here => i
  | .after => i + 1

/-- The body states: `OnBody` with the next `cl` bytes once they are all there. -/
def onBody (proc : Processor) (data : Bytes) (p : Fields) (log : Log) (start : Nat)
    (cl : Int) : Iter :=
  let left : Int := data.length - start
  if cl ≤ left then
    match if cl < 0 then none else slice data start (start + cl.toNat) with
    | none => .leave (.panic p log)
    | some body =>
      match proc.result (log ++ [.onBody body]) with
      | some message => .leave (.fail p (log ++ [.onBody body]) (.processor message))
      | none =>
        let (p, log) := endBody proc p (log ++ [.onBody body])
        -- `start += cl; i = start - 1`, and the `i++` of the loop
        .next p log (start + cl.toNat) (start + cl.toNat)
  else .leave (.exit p log start)

def iterate (proc : Processor) (data : Bytes) (p : Fields) (log : Log) (start i : Nat)
    (c : UInt8) : Iter :=
  if p.parserCloser then .leave (.upgrade p (log ++ [.clean]) start)
  else
    match p.bodyLen with
    | some cl => onBody proc data p log start cl
    | none =>
      match onByte proc p log (slice data start i) c with
      | .go p log s => .next p log (s.apply start i) (i + 1)
      | .fail p log e => .leave (.fail p log e)
      | .panic p log => .leave (.panic p log)

/-- The loop `for i := offset; i < len(data); i++`, for at most `fuel` iterations. -/
def loop (proc : Processor) (data : Bytes) : Nat → Fields → Log → Nat → Nat → LoopEnd
  | 0, p, log, _, _ => .stuck p log
  | fuel + 1, p, log, start, i =>
    if h : i < data.length then
      match iterate proc data p log start i data[i] with
      | .next p log start i => loop proc data fuel p log start i
      | .leave e => e
    else .exit p log start

/-! ## `Parse` -/

/-- What a call of `Parse` leaves behind.  A recovered panic returns a nil error. -/
structure Result where
  parser : Parser
  log : Log
  err : Option Err
  recovered : Bool
deriving DecidableEq, Repr

namespace Parser

/-- `initReadDeadline`; the deadline it sets on the connection is not modelled. -/
def initReadDeadline (p : Parser) : Parser := { p with initialReadDeadlinePending := false }

/-- The label `Exit`: keep what is left of the data. -/
def keepLeft (p : Parser) (data : Bytes) (start : Nat) : Parser :=
  let left := data.length - start
  if 0 < left then
    match p.bytesCached with
    | none => { p with bytesCached := some (data.drop start) }
    | some _ => if 0 < start then { p with bytesCached := some (data.drop start) } else p
  else
    match p.bytesCached with
    | some (_ :: _) => { p with bytesCached := none }
    | _ => p

/-- The label `UPGRADER`: hand the rest of the data to the `ParserCloser`. -/
def upgrader (proc : Processor) (p : Parser) (log : Log) (data : Bytes) (start : Nat) : Result :=
  let log := log ++ [.closerParse (data.drop start)]
  { parser := { p with bytesCached := none }, log := log,
    err := (proc.result log).map .processor, recovered := false }

def leave (proc : Processor) (p : Parser) (data : Bytes) : LoopEnd → Result
  | .exit f log start =>
    { parser := { p with toFields := f }.keepLeft data start, log, err := none, recovered := false }
  | .fail f log e =>
    { parser := { p with toFields := f }, log, err := some e, recovered := false }
  | .upgrade f log start => upgrader proc { p with toFields := f } log data start
  | .panic f log =>
    { parser := { p with toFields := f }, log, err := none, recovered := true }
  | .stuck f log =>
    { parser := { p with toFields := f }, log, err := none, recovered := true }

/-- `Parser.Parse` with the engine's `ReadLimit`. -/
def parse (proc : Processor) (readLimit : Int) (p : Parser) (log : Log) (data : Bytes) : Result :=
  if p.state = .close then { parser := p, log, err := some .closed, recovered := false }
  else
    let p := p.initReadDeadline
    if data = [] then { parser := p, log, err := none, recovered := false }
    else
      let cached := p.bytesCached.getD []
      let offset := cached.length
      if 0 < offset ∧ 0 < readLimit ∧ readLimit < offset + data.length then
        { parser := p, log, err := some .tooLong, recovered := false }
      else
        let p := if 0 < offset then { p with bytesCached := some (cached ++ data) } else p
        let data := cached ++ data
        if p.parserCloser then upgrader proc p log data 0
        else leave proc p data (loop proc data (data.length + 1) p.toFields log 0 offset)

/-- The data handler of a connection: parse the segments in the order they are read, and
stop at the first error, which closes the connection. -/
def feed (proc : Processor) (readLimit : Int) (p : Parser) (log : Log) :
    List Bytes → Result
  | [] => { parser := p, log, err := none, recovered := false }
  | seg :: segs =>
    let r := p.parse proc readLimit log seg
    match r.err with
    | some _ => r
    | none => feed proc readLimit r.parser r.log segs

end Parser

end Nbio.Http
