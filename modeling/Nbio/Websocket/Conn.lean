import Nbio.Websocket.Mask

/-!
# WebSocket connections

Both directions of a `Conn`: `parse` cuts the bytes that are read into frames and puts messages
together from them, and `writeMessage` cuts messages into frames.

The sums that the source makes of lengths are 64-bit and wrap (`wrap64`); a slice expression out
of range and a nil pointer that is followed are panics, which `parse` recovers from and returns
as an error.  What is delivered to the handlers is recorded in a log, with the close frame that
`parse` itself may write.  The handlers do not close the connection.
-/

namespace Nbio.Websocket

open Nbio.Go

/-- `MessageType`, of which the parser meets the sixteen values of an opcode. -/
abbrev MessageType := UInt8

def fragmentMessage : MessageType := 0
def textMessage : MessageType := 1
def binaryMessage : MessageType := 2
def closeMessage : MessageType := 8
def pingMessage : MessageType := 9
def pongMessage : MessageType := 10

def maxControlFramePayloadSize : Nat := 125

/-- A conversion to `int64`. -/
def wrap64 (n : Int) : Int := (n + 2 ^ 63) % 2 ^ 64 - 2 ^ 63

inductive Err where
  | closed
  | tooLong
  | reserveBitSet
  | reservedMessageType (opcode : MessageType)
  | controlMessageFragmented (opcode : MessageType)
  | controlMessageTooBig
  | fragmentsShouldNotHaveBinaryOrTextMessage
  | invalidFragmentMessage
  | messageTooLarge
  /-- `websocket: invalid frame consumed size %d, cached %d`. -/
  | consumedSize (total : Int) (cached : Nat)
  /-- `websocket: parse error: %v`. -/
  | parseError (panic : Bytes)
  /-- An error of the decompressor. -/
  | decompressor (message : Bytes)
  | messageSendQuqueIsFull
  /-- An error of `Write` of the underlying connection. -/
  | write (message : Bytes)
deriving DecidableEq, Repr

def nilDereference : Err :=
  .parseError (ascii "runtime error: invalid memory address or nil pointer dereference")

def sliceOutOfRange (lo hi : Int) : Err :=
  if hi < 0 then .parseError (ascii s!"runtime error: slice bounds out of range [:{hi}]")
  else .parseError (ascii s!"runtime error: slice bounds out of range [{lo}:{hi}]")

def appendTooLong : Err := .parseError (ascii "runtime error: growslice: len out of range")

/-- What a connection reads of its engine and its upgrader. -/
structure Options where
  readLimit : Int
  messageLengthLimit : Int
  enableCompression : Bool
  messageHandler : Bool
  dataFrameHandler : Bool
  /-- `readAll` over the decompressor of a message. -/
  inflate : Bytes → Except Err Bytes
  /-- The limits are `int`s. -/
  readLimit_lt : readLimit < 2 ^ 63
  messageLengthLimit_lt : messageLengthLimit < 2 ^ 63

/-- The fields of `Conn` about the message that is being put together. -/
structure Assembly where
  expectingFragments : Bool
  compress : Bool
  msgType : MessageType
  message : Option Bytes
deriving DecidableEq, Repr

/-- The fields of `Conn` that reading uses. -/
structure Conn extends Assembly where
  closed : Bool
  bytesCached : Option Bytes
deriving DecidableEq, Repr

def newConn : Conn :=
  { expectingFragments := false, compress := false, msgType := 0, message := none
    closed := false, bytesCached := none }

/-- A call of `handleMessage`, `handleDataFrame`, `handleProtocolMessage` or `WriteClose`. -/
inductive Call where
  | message (opcode : MessageType) (payload : Bytes)
  | dataFrame (opcode : MessageType) (fin : Bool) (payload : Bytes)
  | protocol (opcode : MessageType) (payload : Bytes)
  | writeClose (code : Nat) (reason : Bytes)
deriving DecidableEq, Repr

abbrev Log := List Call

/-! ## Reading -/

/-- A complete frame as `nextFrame` returns it. -/
structure Frame where
  total : Int
  opcode : MessageType
  body : Bytes
  fin : Bool
  res1 : Bool
deriving DecidableEq, Repr

variable (o : Options)

def isMessageTooLarge (len : Int) : Bool :=
  0 < o.messageLengthLimit && o.messageLengthLimit < len

def validFrame (opcode : MessageType) (fin res1 res2 res3 expectingFragments : Bool) :
    Option Err :=
  if res1 && !o.enableCompression then some .reserveBitSet
  else if res2 || res3 then some .reserveBitSet
  else if binaryMessage < opcode && opcode < closeMessage then some (.reservedMessageType opcode)
  else if !fin && (opcode != fragmentMessage && opcode != textMessage && opcode != binaryMessage)
    then some (.controlMessageFragmented opcode)
  else if expectingFragments && (opcode == textMessage || opcode == binaryMessage) then
    some .fragmentsShouldNotHaveBinaryOrTextMessage
  else none

/-- The length of the payload and of the head without a mask; the first is -1 as long as it
has not been read. -/
def bodyLength (payloadLen : UInt8) (data : Bytes) : Except Err (Int × Int) :=
  if payloadLen = 126 then
    if 4 ≤ data.length then .ok (beUint ((data.drop 2).take 2), 4) else .ok (-1, 2)
  else if payloadLen = 127 then
    if 10 ≤ data.length then
      let bodyLen := wrap64 (beUint ((data.drop 2).take 8))
      if bodyLen < 0 then .error .invalidFragmentMessage else .ok (bodyLen, 10)
    else .ok (-1, 2)
  else .ok (payloadLen.toNat, 2)

def isControl (opcode : MessageType) : Bool :=
  opcode == pingMessage || opcode == pongMessage || opcode == closeMessage

/-- The opcode of a data message, which stands in its first frame. -/
def isTextOrBinary (opcode : MessageType) : Prop := opcode = textMessage ∨ opcode = binaryMessage

instance : DecidablePred isTextOrBinary := fun _ => inferInstanceAs (Decidable (_ ∨ _))

/-- The end of `nextFrame`, for a payload whose length is known. -/
def takeFrame (expectingFragments : Bool) (b₀ b₁ : UInt8) (headLen bodyLen : Int) (data : Bytes) :
    Except Err (Option Frame) :=
  let masked := b₁ &&& 0x80 != 0
  let headLen := if masked then headLen + 4 else headLen
  let total := wrap64 (headLen + bodyLen)
  if total ≤ data.length then
    if total < headLen then .error (sliceOutOfRange headLen total)
    else
      let body := (data.drop headLen.toNat).take (total - headLen).toNat
      let key := (data.drop (headLen - 4).toNat).take 4
      let opcode := b₀ &&& 0xF
      let fin := b₀ &&& 0x80 != 0
      let res1 := b₀ &&& 0x40 != 0
      match validFrame o opcode fin res1 (b₀ &&& 0x20 != 0) (b₀ &&& 0x10 != 0)
        expectingFragments with
      | some e => .error e
      | none => .ok (some
          { total := total, opcode := opcode, body := if masked then maskXOR body key else body
            fin := fin, res1 := res1 })
  else .ok none

/-- `nextFrame` on the cached bytes: a frame, or `none` if it is not complete. -/
def nextFrame (a : Assembly) (data : Bytes) : Except Err (Option Frame) :=
  match data with
  | b₀ :: b₁ :: _ =>
    match bodyLength (b₁ &&& 0x7F) data with
    | .error e => .error e
    | .ok (bodyLen, headLen) =>
      let ml : Nat := (a.message.map List.length).getD 0
      if isMessageTooLarge o (wrap64 (ml + bodyLen)) then .error .messageTooLarge
      else if maxControlFramePayloadSize < bodyLen && isControl (b₀ &&& 0xF) then
        .error .controlMessageTooBig
      else if 0 ≤ bodyLen then takeFrame o a.expectingFragments b₀ b₁ headLen bodyLen data
      else .ok none
  | _ => .ok none

/-- `c.message` with the payload of one more frame. -/
def appendMessage (message : Option Bytes) (body : Bytes) : Except Err (Option Bytes) :=
  if body = [] then .ok message
  else
    match message with
    | none => .ok (some body)
    | some m =>
      if m.length + body.length < 2 ^ 63 then .ok (some (m ++ body)) else .error appendTooLong

/-- The message that a last frame completes. -/
def wholeMessage (compress : Bool) (message : Option Bytes) : Except Err (Option Bytes) :=
  if compress then
    match message with
    | none => .error nilDereference
    | some m => (o.inflate m).map some
  else .ok message

def deliverFrame (msgType : MessageType) (f : Frame) : Log :=
  if f.body ≠ [] ∧ o.dataFrameHandler then [.dataFrame msgType f.fin f.body] else []

/-- What `Parse` does about a data frame: the message and what is delivered. -/
def onDataFrame (a : Assembly) (f : Frame) : Except Err (Assembly × Log) :=
  let a := if a.msgType = 0 then { a with msgType := f.opcode, compress := f.res1 } else a
  if o.messageHandler then
    match appendMessage a.message f.body with
    | .error e => .error e
    | .ok message =>
      if f.fin then
        match wholeMessage o a.compress message with
        | .error e => .error e
        | .ok whole =>
          .ok ({ expectingFragments := false, compress := false, msgType := 0, message := none },
            (whole.map (Call.message a.msgType)).toList ++ deliverFrame o a.msgType f)
      else
        .ok ({ a with message := message, expectingFragments := true }, deliverFrame o a.msgType f)
  else .ok (a, deliverFrame o a.msgType f)

def onFrame (a : Assembly) (f : Frame) : Except Err (Assembly × Log) :=
  if f.opcode = fragmentMessage ∨ f.opcode = textMessage ∨ f.opcode = binaryMessage then
    onDataFrame o a f
  else if isControl f.opcode then .ok (a, [.protocol f.opcode f.body])
  else .error .invalidFragmentMessage

/-- What is left of the cached bytes behind a frame. -/
def keepRest (data : Bytes) (total : Int) : Except Err (Option Bytes) :=
  if total ≤ 0 ∨ data.length < total then .error (.consumedSize total data.length)
  else if data.length = total then .ok none
  else .ok (some (data.drop total.toNat))

/-- The close frame that `Parse` writes before it returns an error. -/
def closeNotice (e : Err) : Log :=
  match e with
  | .messageTooLarge => [.writeClose 1009 (ascii "message exceeds the configured limit")]
  | .controlMessageTooBig => [.writeClose 1009 (ascii "websocket: control frame length > 125")]
  | _ => []

/-- The calls made so far, and the connection that a call of `Parse` leaves or its error.  The
reader closes the connection behind an error. -/
abbrev Result := Log × Except Err Conn

def loop : Nat → Conn → Log → Result
  | 0, c, log => (log, .ok c)
  | fuel + 1, c, log =>
    if c.closed then (log, .ok c)
    else
      let data := c.bytesCached.getD []
      match nextFrame o c.toAssembly data with
      | .error e => (log ++ closeNotice e, .error e)
      | .ok none => (log, .ok c)
      | .ok (some f) =>
        match onFrame o c.toAssembly f with
        | .error e => (log ++ closeNotice e, .error e)
        | .ok (a, calls) =>
          match keepRest data f.total with
          | .error e => (log ++ closeNotice e, .error e)
          | .ok rest => loop fuel { c with toAssembly := a, bytesCached := rest } (log ++ calls)

/-- `Parse`.  The loop reads two bytes at least in every iteration but the last. -/
def parse (c : Conn) (log : Log) (data : Bytes) : Result :=
  if data = [] then (log, .ok c)
  else if c.closed then (log, .error .closed)
  else if 0 < o.readLimit ∧ c.bytesCached.isSome ∧
      o.readLimit < (c.bytesCached.getD []).length + data.length then (log, .error .tooLong)
  else
    let cached := c.bytesCached.getD [] ++ data
    loop o (cached.length + 1) { c with bytesCached := some cached } log

/-- `Parse` for one piece after the other, up to the first error. -/
def feed (c : Conn) (log : Log) : List Bytes → Result
  | [] => (log, .ok c)
  | seg :: segs =>
    match parse o c log seg with
    | (log, .error e) => (log, .error e)
    | (log, .ok c) => feed c log segs

/-! ## Writing -/

/-- What writing reads of a connection and its engine, and what it gets from outside: the keys of
`rand.Uint32`, what the compressor writes for a message (`none` if it fails, `some none` if it
writes nothing), and which frame is refused by the send queue or by the connection below. -/
structure Sender where
  closed : Bool
  isClient : Bool
  enableWriteCompression : Bool
  maxWebsocketFramePayloadSize : Nat
  rand : Nat → UInt32
  deflate : Bytes → Option (Option Bytes)
  refuses : Nat → Option Err
  /-- The engine replaces other sizes by the default. -/
  maxWebsocketFramePayloadSize_pos : 0 < maxWebsocketFramePayloadSize

/-- How often `writeFrame` was called, and the frames that went out. -/
structure Sent where
  count : Nat
  frames : List Bytes
deriving DecidableEq, Repr

/-- The length in the second byte of a frame, and the bytes behind it. -/
def lengthCode (bodyLen : Nat) : UInt8 × Bytes :=
  if bodyLen < 126 then (UInt8.ofNat bodyLen, [])
  else if bodyLen ≤ 65535 then (126, putBeUint 2 bodyLen)
  else (127, putBeUint 8 bodyLen)

def maskedPayload (isClient : Bool) (u32 : UInt32) (data : Bytes) : Bytes :=
  if isClient then
    let key := putLeUint 4 u32.toNat
    key ++ maskXOR data key
  else data

/-- The bytes that `writeFrame` puts together. -/
def encodeFrame (isClient : Bool) (u32 : UInt32) (messageType : MessageType)
    (sendOpcode fin : Bool) (data : Bytes) (compress : Bool) : Bytes :=
  let byte₀ := (if sendOpcode then messageType else 0) ||| (if compress then 0x40 else 0) |||
    (if fin then 0x80 else 0)
  let byte₁ := (if isClient then 0x80 else 0) ||| (lengthCode data.length).1
  byte₀ :: byte₁ :: ((lengthCode data.length).2 ++ maskedPayload isClient u32 data)

variable (p : Sender)

def writeFrame (w : Sent) (messageType : MessageType) (sendOpcode fin : Bool) (data : Bytes)
    (compress : Bool) : Option Err × Sent :=
  let frame := encodeFrame p.isClient (p.rand w.count) messageType sendOpcode fin data compress
  match p.refuses w.count with
  | some e => (some e, { w with count := w.count + 1 })
  | none => (none, { count := w.count + 1, frames := w.frames ++ [frame] })

section FrameWriter

/-- A `writeFrame` that keeps what it knows in a `σ`: type, `sendOpcode`, `fin`, data,
`compress`. -/
abbrev FrameWriter (σ : Type) := σ → MessageType → Bool → Bool → Bytes → Bool → Option Err × σ

variable {σ : Type} (frame : FrameWriter σ) (messageType : MessageType)

/-- The loop of `WriteMessage`, which takes a byte at least in every iteration. -/
def writeFrames : Nat → σ → (sendOpcode sendCompress : Bool) → Bytes → Option Err × σ
  | 0, w, _, _, _ => (none, w)
  | fuel + 1, w, sendOpcode, sendCompress, data =>
    if data = [] then (none, w)
    else
      let n := if p.maxWebsocketFramePayloadSize < data.length then p.maxWebsocketFramePayloadSize
        else data.length
      match frame w messageType sendOpcode (n == data.length) (data.take n) sendCompress with
      | (some e, w) => (some e, w)
      | (none, w) => writeFrames fuel w false false (data.drop n)

/-- What `WriteMessage` sends for a payload, and whether it is compressed. -/
def compressed (messageType : MessageType) (data : Bytes) : Bool × Bytes :=
  if p.enableWriteCompression && (messageType == textMessage || messageType == binaryMessage) then
    match p.deflate data with
    | none => (false, data)
    | some z => (true, z.getD data)
  else (false, data)

def writeMessageBy (closed : Bool) (w : σ) (data : Bytes) : Option Err × σ :=
  if closed then (some .closed, w)
  else if isControl messageType && maxControlFramePayloadSize < data.length then
    (some .controlMessageTooBig, w)
  else
    let (compress, data) := compressed p messageType data
    if data ≠ [] then writeFrames p frame messageType data.length w true compress data
    else frame w messageType true true [] compress

end FrameWriter

def writeMessage (w : Sent) (messageType : MessageType) (data : Bytes) : Option Err × Sent :=
  writeMessageBy p (writeFrame p) messageType p.closed w data

/-- `WriteMessage` for one message after the other, up to the first error. -/
def writeMessages (w : Sent) : List (MessageType × Bytes) → Option Err × Sent
  | [] => (none, w)
  | (messageType, data) :: messages =>
    match writeMessage p w messageType data with
    | (some e, w) => (some e, w)
    | (none, w) => writeMessages w messages

end Nbio.Websocket
