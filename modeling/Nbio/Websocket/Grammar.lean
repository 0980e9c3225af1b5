import Nbio.Websocket.Reassembly

/-!
# Which illegal frames are noticed

A peer may not send every frame at any time: `Head.illegal` says which frames are against the
framing rules, given whether a fragmented message is in progress.  The checks against them are
spread over `nextFrame`, `validFrame`, the switch of `Parse`, and `handleWsMessage`, which runs when
a message is complete.  Together they leave gaps, and `unnoticed` says what these are.
-/

namespace Nbio.Websocket

open Nbio.Go Nbio.Lib List

/-! ## `handleWsMessage` -/

inductive CloseErr where
  | invalidUtf8
  | invalidCloseCode
  /-- `CloseError`, with what the peer has sent. -/
  | closeError (code : Nat) (reason : Bytes)
  | invalidFragmentMessage
  /-- `websocket: invalid message type: %v`. -/
  | invalidMessageType (opcode : MessageType)
deriving DecidableEq, Repr

/-- What `handleWsMessage` does about a message. -/
inductive Effect where
  | messageHandler (opcode : MessageType) (data : Bytes)
  | pingMessageHandler (data : Bytes)
  | pongMessageHandler (data : Bytes)
  | closeMessageHandler (code : Nat) (reason : Bytes)
  | setCloseError (e : CloseErr)
  | writeMessage (opcode : MessageType) (data : Bytes)
  | close
deriving DecidableEq, Repr

def validCloseCode (code : Nat) : Bool :=
  match code with
  | 1000 | 1001 | 1002 | 1003 => true
  | 1004 | 1005 | 1006 => false
  | 1007 | 1008 | 1009 | 1010 | 1011 | 1015 => true
  | _ => 3000 ≤ code && code < 5000

def refuse (e : CloseErr) (text : Bytes) : List Effect :=
  [.setCloseError e, .writeMessage closeMessage (putBeUint 2 1002 ++ text), .close]

def closedByPeer (code : Nat) (reason : Bytes) : List Effect :=
  (if code ≠ 1000 then [.setCloseError (.closeError code reason)] else []) ++
    [.closeMessageHandler code reason, .close]

variable (checkUtf8 : Bytes → Bool)

/-- `handleWsMessage`, but for the read deadline. -/
def handleWsMessage (opcode : MessageType) (data : Bytes) : List Effect :=
  if opcode = binaryMessage then [.messageHandler opcode data]
  else if opcode = textMessage then
    if !checkUtf8 data then refuse .invalidUtf8 (ascii "invalid UTF-8 bytes")
    else [.messageHandler opcode data]
  else if opcode = pingMessage then [.pingMessageHandler data]
  else if opcode = pongMessage then [.pongMessageHandler data]
  else if opcode = closeMessage then
    match data with
    | [] => closedByPeer 1005 []
    | [_] => closedByPeer 1002 []
    | b₀ :: b₁ :: reason =>
      let code := beUint [b₀, b₁]
      if !validCloseCode code then refuse .invalidCloseCode []
      else if !checkUtf8 reason then refuse .invalidUtf8 (ascii "invalid UTF-8 bytes")
      else closedByPeer code reason
  else if opcode = fragmentMessage then [.setCloseError .invalidFragmentMessage, .close]
  else [.setCloseError (.invalidMessageType opcode), .close]

def Effect.isCloseError : Effect → Bool
  | .setCloseError _ => true
  | _ => false

/-- A close error is set and the connection is closed. -/
def failing (effects : List Effect) : Bool :=
  effects.any Effect.isCloseError && effects.contains .close

/-- The calls that make the connection fail. -/
def Call.fails : Call → Bool
  | .message opcode data | .protocol opcode data => failing (handleWsMessage checkUtf8 opcode data)
  | _ => false

/-- `Parse` has returned an error, or one of its calls has failed the connection. -/
def Result.fails (r : Result) : Bool := r.2.toOption.isNone || r.1.any (Call.fails checkUtf8)

/-- The payload of a close frame for the code 1000. -/
def normalClosure : Bytes → Bool
  | b₀ :: b₁ :: reason => beUint [b₀, b₁] == 1000 && checkUtf8 reason
  | _ => false

variable {checkUtf8}

theorem failing_refuse (e : CloseErr) (text : Bytes) : failing (refuse e text) = true := by
  simp [failing, refuse, Effect.isCloseError]

theorem failing_closedByPeer (code : Nat) (reason : Bytes) :
    failing (closedByPeer code reason) = (code != 1000) := by
  unfold failing closedByPeer
  by_cases h : code = 1000
  · simp [h, Effect.isCloseError]
  · simp [h, Effect.isCloseError]

theorem message_fails {t : MessageType} (ht : t = fragmentMessage ∨ isTextOrBinary t) (m : Bytes) :
    (Call.message t m).fails checkUtf8 =
      (t == fragmentMessage || (t == textMessage && !checkUtf8 m)) := by
  rcases ht with rfl | rfl | rfl
  · rfl
  · have htext : (Call.message textMessage m).fails checkUtf8 = failing
        (if !checkUtf8 m then refuse .invalidUtf8 (ascii "invalid UTF-8 bytes")
          else [.messageHandler textMessage m]) := rfl
    rw [htext]
    cases checkUtf8 m with
    | false => exact failing_refuse _ _
    | true => rfl
  · rfl

theorem protocol_fails {t : MessageType} (ht : isControl t = true) (m : Bytes) :
    (Call.protocol t m).fails checkUtf8 =
      (t == closeMessage && !normalClosure checkUtf8 m) := by
  rcases isControl_cases ht with rfl | rfl | rfl
  · rfl
  · rfl
  · match m with
    | [] => exact failing_closedByPeer 1005 []
    | [_] => exact failing_closedByPeer 1002 []
    | b₀ :: b₁ :: reason =>
      have hclose : (Call.protocol closeMessage (b₀ :: b₁ :: reason)).fails checkUtf8 = failing
          (if !validCloseCode (beUint [b₀, b₁]) then refuse .invalidCloseCode []
            else if !checkUtf8 reason then refuse .invalidUtf8 (ascii "invalid UTF-8 bytes")
            else closedByPeer (beUint [b₀, b₁]) reason) := rfl
      rw [hclose, normalClosure]
      generalize beUint [b₀, b₁] = code
      by_cases h : code = 1000
      · subst h
        cases checkUtf8 reason with
        | false => exact failing_refuse _ _
        | true => exact failing_closedByPeer 1000 reason
      · have hne : (code == 1000) = false := beq_eq_false_iff_ne.2 h
        rw [hne]
        split
        · exact failing_refuse _ _
        split
        · exact failing_refuse _ _
        · rw [failing_closedByPeer, bne, hne]
          rfl

/-! ## Frames and the rules they are under -/

structure Head where
  fin : Bool
  rsv1 : Bool
  rsv2 : Bool
  rsv3 : Bool
  opcode : MessageType
  payload : Bytes
  size : Nat
deriving DecidableEq, Repr

/-- The number of bytes of the extended length. -/
def extLength (code : Nat) : Nat := if code = 126 then 2 else if code = 127 then 8 else 0

/-- The frame at the front of the bytes, if all of it is there. -/
def completeFrame : Bytes → Option Head
  | b₀ :: b₁ :: rest =>
    let code := (b₁ &&& 0x7F).toNat
    let ext := extLength code
    let len := if ext = 0 then code else beUint (rest.take ext)
    let masked := b₁ &&& 0x80 != 0
    let start := ext + keyLength masked
    if start + len ≤ rest.length then
      let body := (rest.drop start).take len
      some
        { fin := b₀ &&& 0x80 != 0, rsv1 := b₀ &&& 0x40 != 0, rsv2 := b₀ &&& 0x20 != 0
          rsv3 := b₀ &&& 0x10 != 0, opcode := b₀ &&& 0xF
          payload := if masked then maskXOR body ((rest.drop ext).take 4) else body
          size := 2 + start + len }
    else none
  | _ => none

/-- The frame is against the rules, where a fragmented message is in progress or not and
permessage-deflate has been negotiated or not. -/
def Head.illegal (negotiated inMessage : Bool) (h : Head) : Bool :=
  (h.opcode == fragmentMessage && !inMessage) || (decide (isTextOrBinary h.opcode) && inMessage) ||
  (isControl h.opcode && !h.fin) ||
  (!isControl h.opcode && !decide (isTextOrBinary h.opcode) && h.opcode != fragmentMessage) ||
  h.rsv2 || h.rsv3 || (h.rsv1 && !(negotiated && decide (isTextOrBinary h.opcode)))

def Head.inMessage (inMessage : Bool) (h : Head) : Bool :=
  if isControl h.opcode then inMessage else !h.fin

/-- The frames are complete and within the rules, and leave a message in progress or not. -/
def follow (negotiated : Bool) : Bool → List Bytes → Option Bool
  | inMessage, [] => some inMessage
  | inMessage, x :: xs =>
    match completeFrame x with
    | none => none
    | some h =>
      if h.size ≠ x.length ∨ h.illegal negotiated inMessage = true then none
      else follow negotiated (h.inMessage inMessage) xs

/-! ## What `nextFrame` says about a complete frame -/

variable {o : Options} {a : Assembly} {x : Bytes} {h : Head}

def Head.toFrame (h : Head) : Frame :=
  { total := h.size, opcode := h.opcode, body := h.payload, fin := h.fin, res1 := h.rsv1 }

theorem bodyLength_complete {p : UInt8} {len : Nat} (b₀ b₁ : UInt8) {rest : Bytes}
    (hlen : len = if extLength p.toNat = 0 then p.toNat else beUint (rest.take (extLength p.toNat)))
    (hext : extLength p.toNat ≤ rest.length) (hlt : len < 2 ^ 63) :
    bodyLength p (b₀ :: b₁ :: rest) = .ok (len, 2 + extLength p.toNat) := by
  have hlength : (b₀ :: b₁ :: rest).length = rest.length + 2 := rfl
  unfold bodyLength
  rw [hlength]
  by_cases h126 : p = 126
  · subst h126
    have hfour : 4 ≤ rest.length + 2 := Nat.add_le_add_right hext 2
    rw [if_pos hfour, hlen]
    rfl
  by_cases h127 : p = 127
  · subst h127
    have hten : 10 ≤ rest.length + 2 := Nat.add_le_add_right hext 2
    have hwrap : wrap64 (beUint (((b₀ :: b₁ :: rest).drop 2).take 8)) = (len : Int) := by
      rw [hlen] at hlt ⊢
      exact wrap64_of_lt (by omega) (by exact_mod_cast hlt)
    rw [if_pos hten, hwrap]
    rfl
  · have hne126 : p.toNat ≠ 126 := fun h => h126 (UInt8.toNat_inj.1 h)
    have hne127 : p.toNat ≠ 127 := fun h => h127 (UInt8.toNat_inj.1 h)
    have hzero : extLength p.toNat = 0 := by
      rw [extLength, if_neg hne126, if_neg hne127]
    rw [if_neg h126, if_neg h127, hlen, hzero]
    rfl

theorem takeFrame_complete {e : Bool} {b₀ b₁ : UInt8} {rest : Bytes} {ext len : Nat}
    (hle : ext + keyLength (b₁ &&& 0x80 != 0) + len ≤ rest.length)
    (hlen : rest.length + 2 < 2 ^ 63) :
    takeFrame o e b₀ b₁ (2 + ext) len (b₀ :: b₁ :: rest) =
      match validFrame o (b₀ &&& 0xF) (b₀ &&& 0x80 != 0) (b₀ &&& 0x40 != 0) (b₀ &&& 0x20 != 0)
        (b₀ &&& 0x10 != 0) e with
      | some e => .error e
      | none => .ok (some
          { total := (2 + (ext + keyLength (b₁ &&& 0x80 != 0)) + len : Nat), opcode := b₀ &&& 0xF
            body := if b₁ &&& 0x80 != 0 then
                maskXOR ((rest.drop (ext + keyLength (b₁ &&& 0x80 != 0))).take len)
                  ((rest.drop ext).take 4)
              else (rest.drop (ext + keyLength (b₁ &&& 0x80 != 0))).take len
            fin := b₀ &&& 0x80 != 0, res1 := b₀ &&& 0x40 != 0 }) := by
  have hhead : (if (b₁ &&& 0x80 != 0) = true then (2 + (ext : Int)) + 4 else 2 + ext) =
      (2 + (ext + keyLength (b₁ &&& 0x80 != 0)) : Nat) := by
    unfold keyLength
    split <;> omega
  have hdrop : ∀ n, (b₀ :: b₁ :: rest).drop (2 + n) = rest.drop n := by
    intro n
    rw [← drop_drop]
    rfl
  unfold takeFrame
  dsimp only
  rw [hhead]
  generalize hkey : keyLength (b₁ &&& 0x80 != 0) = key at hle hhead ⊢
  rw [wrap64_of_lt (by omega) (by omega), if_pos (by simp only [length_cons]; omega),
    if_neg (by omega), Int.toNat_natCast, hdrop]
  have htake : (((2 + (ext + key) : Nat) : Int) + len - (2 + (ext + key) : Nat)).toNat = len := by
    omega
  rw [htake]
  cases hmask : b₁ &&& 0x80 != 0 with
  | false => rfl
  | true =>
    rw [hmask] at hkey
    have hstart : (((2 + (ext + key) : Nat) : Int) - 4).toNat = 2 + ext := by
      rw [← hkey]
      simp only [keyLength, if_true]
      omega
    have hkeyBytes : (b₀ :: b₁ :: rest).drop (((2 + (ext + key) : Nat) : Int) - 4).toNat =
        rest.drop ext := by
      rw [hstart, hdrop]
    exact hkeyBytes ▸ rfl

theorem length_unmasked {masked : Bool} {rest : Bytes} {ext len : Nat}
    (hle : ext + keyLength masked + len ≤ rest.length) :
    (if masked then maskXOR ((rest.drop (ext + keyLength masked)).take len) ((rest.drop ext).take 4)
      else (rest.drop (ext + keyLength masked)).take len).length = len := by
  have hbody : ((rest.drop (ext + keyLength masked)).take len).length = len := by
    rw [length_take, length_drop]
    omega
  cases masked with
  | false => exact hbody
  | true =>
    have hkey : ((rest.drop ext).take 4).length = 4 := by
      rw [length_take, length_drop]
      simp only [keyLength, if_true] at hle
      omega
    rw [if_pos rfl, length_maskXOR _ hkey, hbody]

theorem completeFrame_cases (hx : completeFrame x = some h) :
    ∃ b₀ b₁ rest ext len, x = b₀ :: b₁ :: rest ∧ ext = extLength (b₁ &&& 0x7F).toNat ∧
      len = (if ext = 0 then (b₁ &&& 0x7F).toNat else beUint (rest.take ext)) ∧
      ext + keyLength (b₁ &&& 0x80 != 0) + len ≤ rest.length ∧
      h = { fin := b₀ &&& 0x80 != 0, rsv1 := b₀ &&& 0x40 != 0, rsv2 := b₀ &&& 0x20 != 0
            rsv3 := b₀ &&& 0x10 != 0, opcode := b₀ &&& 0xF
            payload :=
              if b₁ &&& 0x80 != 0 then
                maskXOR ((rest.drop (ext + keyLength (b₁ &&& 0x80 != 0))).take len)
                  ((rest.drop ext).take 4)
              else (rest.drop (ext + keyLength (b₁ &&& 0x80 != 0))).take len
            size := 2 + (ext + keyLength (b₁ &&& 0x80 != 0)) + len } := by
  unfold completeFrame at hx
  split at hx
  · next b₀ b₁ rest =>
    dsimp only at hx
    generalize hext : extLength (b₁ &&& 127).toNat = ext at hx
    generalize hn : (if ext = 0 then (b₁ &&& 127).toNat else beUint (rest.take ext)) = len at hx
    split at hx
    · next hle =>
      exact ⟨b₀, b₁, rest, ext, len, rfl, hext.symm, hn.symm, hle, (Option.some.inj hx).symm⟩
    · cases hx
  · cases hx

theorem completeFrame_payload (hx : completeFrame x = some h) :
    h.payload.length + 2 ≤ x.length := by
  obtain ⟨b₀, b₁, rest, ext, len, rfl, -, -, hle, rfl⟩ := completeFrame_cases hx
  rw [length_unmasked hle]
  simp only [length_cons]
  omega

theorem nextFrame_complete (hx : completeFrame x = some h) (hlen : x.length < 2 ^ 63) :
    nextFrame o a x =
      if isMessageTooLarge o (wrap64 (a.len + h.payload.length)) then .error .messageTooLarge
      else if maxControlFramePayloadSize < h.payload.length && isControl h.opcode then
        .error .controlMessageTooBig
      else
        match validFrame o h.opcode h.fin h.rsv1 h.rsv2 h.rsv3 a.expectingFragments with
        | some e => .error e
        | none => .ok (some h.toFrame) := by
  obtain ⟨b₀, b₁, rest, ext, len, rfl, hext, hn, hle, rfl⟩ := completeFrame_cases hx
  rw [show (b₀ :: b₁ :: rest).length = rest.length + 2 from rfl] at hlen
  have hbody : bodyLength (b₁ &&& 127) (b₀ :: b₁ :: rest) = .ok (len, 2 + ext) := by
    subst hext
    exact bodyLength_complete b₀ b₁ hn (by omega) (by omega)
  unfold nextFrame
  dsimp only
  rw [hbody, length_unmasked hle]
  dsimp only
  rw [takeFrame_complete hle hlen]
  simp only [Nat.cast_lt]
  rfl

/-! ## The gaps -/

/-- A data message that is complete is delivered without failing the connection. -/
def delivers (o : Options) (checkUtf8 : Bytes → Bool) (t : MessageType) (compress : Bool)
    (m : Bytes) : Bool :=
  if compress then
    m != [] &&
      match o.inflate m with
      | .error _ => false
      | .ok whole => t != textMessage || checkUtf8 whole
  else m == [] || t != textMessage || checkUtf8 m

def Assembly.extended (a : Assembly) (payload : Bytes) : Bytes := a.message.getD [] ++ payload

/-- A continuation of no message goes unnoticed unless it completes one. -/
def strayUnnoticed (o : Options) (h : Head) : Bool :=
  !o.messageHandler || !h.fin || (h.payload == [] && !h.rsv1)

/-- The bit that announces compression goes unnoticed wherever the frame itself may stand. -/
def compressUnnoticed (o : Options) (checkUtf8 : Bytes → Bool) (a : Assembly) (h : Head) : Bool :=
  if isControl h.opcode then
    h.fin && (h.opcode != closeMessage || normalClosure checkUtf8 h.payload)
  else if h.opcode == fragmentMessage then
    !o.messageHandler || !h.fin ||
      delivers o checkUtf8 a.msgType a.compress (a.extended h.payload)
  else
    decide (isTextOrBinary h.opcode) &&
      (!o.messageHandler || !h.fin || delivers o checkUtf8 h.opcode true h.payload)

/-- The sizes and the reserved bits are let through. -/
def Head.passes (o : Options) (a : Assembly) (h : Head) : Bool :=
  !isMessageTooLarge o (a.len + h.payload.length) &&
  !(maxControlFramePayloadSize < h.payload.length && isControl h.opcode) &&
  !h.rsv2 && !h.rsv3 && (!h.rsv1 || o.enableCompression)

/-- The illegal frames that go unnoticed where `a` has been put together. -/
def unnoticed (o : Options) (checkUtf8 : Bytes → Bool) (inMessage : Bool) (a : Assembly)
    (h : Head) : Bool :=
  h.passes o a &&
  if h.opcode == fragmentMessage && !inMessage then strayUnnoticed o h
  else if decide (isTextOrBinary h.opcode) && inMessage then !o.messageHandler
  else h.rsv1 && compressUnnoticed o checkUtf8 a h

/-! ## One frame -/

structure Assembly.Tracks (o : Options) (a : Assembly) (inMessage : Bool) : Prop where
  expecting : a.expectingFragments = (o.messageHandler && inMessage)
  idle : o.messageHandler = true → inMessage = false → a = .idle
  typed : o.messageHandler = true → inMessage = true → isTextOrBinary a.msgType
  set : inMessage = true → a.msgType ≠ 0
  /-- There is no buffer before there are bytes. -/
  buffered : a.message ≠ some []

/-- A frame fails the connection: it is an error, or one of the calls for it fails. -/
def Outcome.fails (checkUtf8 : Bytes → Bool) : Except Err (Assembly × Log) → Bool
  | .error _ => true
  | .ok (_, calls) => calls.any (Call.fails checkUtf8)

variable {inMessage : Bool}

theorem deliverFrame_fails (t : MessageType) (f : Frame) :
    (deliverFrame o t f).any (Call.fails checkUtf8) = false := by
  unfold deliverFrame
  split <;> rfl

theorem appendMessage_extended (hbuf : a.message ≠ some [])
    (hlen : a.len + h.payload.length < 2 ^ 63) :
    appendMessage a.message h.payload =
      .ok (if a.extended h.payload = [] then none else some (a.extended h.payload)) := by
  have hheld : a.message = if a.message.getD [] = [] then none else some (a.message.getD []) := by
    cases hm : a.message with
    | none => rfl
    | some m =>
      have hne : m ≠ [] := by
        rintro rfl
        exact hbuf hm
      rw [Option.getD_some, if_neg hne]
  have hlength : (a.message.getD []).length = a.len := by
    unfold Assembly.len
    cases a.message <;> rfl
  rw [hheld]
  exact appendMessage_held (by rw [length_append, hlength]; exact hlen)

def Assembly.typeWith (a : Assembly) (h : Head) : MessageType :=
  if a.msgType = 0 then h.opcode else a.msgType

def Assembly.compressWith (a : Assembly) (h : Head) : Bool :=
  if a.msgType = 0 then h.rsv1 else a.compress

/-- What follows of a last frame with a message handler. -/
def complete (o : Options) (t : MessageType) (compress : Bool) (m : Bytes) : Except Err Log :=
  (wholeMessage o compress (if m = [] then none else some m)).map fun whole =>
    (whole.map (Call.message t)).toList

theorem onDataFrame_unhandled (hhandler : o.messageHandler = false) :
    onDataFrame o a h.toFrame = .ok
      ({ a with msgType := a.typeWith h, compress := a.compressWith h },
        deliverFrame o (a.typeWith h) h.toFrame) := by
  unfold onDataFrame Assembly.typeWith Assembly.compressWith
  rw [hhandler]
  split <;> rfl

theorem onDataFrame_eq (hhandler : o.messageHandler = true) (hbuf : a.message ≠ some [])
    (hlen : a.len + h.payload.length < 2 ^ 63) :
    onDataFrame o a h.toFrame =
      if h.fin then
        (complete o (a.typeWith h) (a.compressWith h) (a.extended h.payload)).map fun calls =>
          (.idle, calls ++ deliverFrame o (a.typeWith h) h.toFrame)
      else
        .ok ({ expectingFragments := true, compress := a.compressWith h, msgType := a.typeWith h
               message := if a.extended h.payload = [] then none else some (a.extended h.payload) },
          deliverFrame o (a.typeWith h) h.toFrame) := by
  have happ := appendMessage_extended hbuf hlen
  unfold onDataFrame complete
  generalize (if a.extended h.payload = [] then none else some (a.extended h.payload)) = message
    at happ ⊢
  unfold Assembly.typeWith Assembly.compressWith
  by_cases hzero : a.msgType = 0
  · simp only [hzero, ↓reduceIte, hhandler, Head.toFrame, happ]
    cases h.fin with
    | false => rfl
    | true =>
      cases wholeMessage o h.rsv1 message with
      | error e => rfl
      | ok whole => rfl
  · simp only [hzero, ↓reduceIte, hhandler, Head.toFrame, happ]
    cases h.fin with
    | false => rfl
    | true =>
      cases wholeMessage o a.compress message with
      | error e => rfl
      | ok whole => rfl

theorem complete_fails (t : MessageType) (compress : Bool) (m : Bytes) (f : Frame)
    (b : Assembly) :
    Outcome.fails checkUtf8 ((complete o t compress m).map fun calls =>
        (b, calls ++ deliverFrame o t f)) =
      if compress then
        m == [] ||
          match o.inflate m with
          | .error _ => true
          | .ok whole => (Call.message t whole).fails checkUtf8
      else m != [] && (Call.message t m).fails checkUtf8 := by
  have hany : ∀ calls : Log, (calls ++ deliverFrame o t f).any (Call.fails checkUtf8) =
      calls.any (Call.fails checkUtf8) := by
    intro calls
    rw [any_append, deliverFrame_fails, Bool.or_false]
  unfold complete wholeMessage
  by_cases hnil : m = []
  · subst hnil
    cases compress with
    | true => rfl
    | false => exact hany []
  · have hne : (m == []) = false := beq_eq_false_iff_ne.2 hnil
    rw [if_neg hnil, bne, hne]
    cases compress with
    | true =>
      dsimp only
      cases o.inflate m with
      | error e => rfl
      | ok whole =>
        refine (hany [Call.message t whole]).trans ?_
        exact Bool.or_false _
    | false =>
      refine (hany [Call.message t m]).trans ?_
      exact Bool.or_false _

theorem complete_fails_data {t : MessageType} (ht : isTextOrBinary t) (compress : Bool) (m : Bytes)
    (f : Frame) (b : Assembly) :
    Outcome.fails checkUtf8 ((complete o t compress m).map fun calls =>
        (b, calls ++ deliverFrame o t f)) = !delivers o checkUtf8 t compress m := by
  have hne : (t == fragmentMessage) = false := by
    rcases ht with rfl | rfl <;> rfl
  rw [complete_fails, delivers]
  cases compress with
  | true =>
    rw [if_pos rfl, if_pos rfl, Bool.not_and, bne, Bool.not_not]
    cases o.inflate m with
    | error e => rfl
    | ok whole =>
      dsimp only
      rw [message_fails (.inr ht), hne, Bool.false_or, Bool.not_or, bne, Bool.not_not]
  | false =>
    rw [if_neg Bool.false_ne_true, if_neg Bool.false_ne_true, message_fails (.inr ht), hne,
      Bool.false_or, Bool.not_or, Bool.not_or, bne, bne, Bool.not_not, Bool.and_assoc]

theorem complete_fails_stray (compress : Bool) (m : Bytes) (f : Frame) (b : Assembly) :
    Outcome.fails checkUtf8 ((complete o fragmentMessage compress m).map fun calls =>
        (b, calls ++ deliverFrame o fragmentMessage f)) = !(m == [] && !compress) := by
  have hfails : ∀ whole, (Call.message fragmentMessage whole).fails checkUtf8 = true :=
    fun whole => rfl
  rw [complete_fails]
  cases compress with
  | true =>
    rw [Bool.not_true, Bool.and_false]
    cases o.inflate m with
    | error e => exact Bool.or_true _
    | ok whole => exact Bool.or_true _
  | false =>
    rw [if_neg Bool.false_ne_true, hfails, Bool.and_true, Bool.not_false, Bool.and_true, bne]

theorem onDataFrame_fails (ha : a.Tracks o inMessage) (hlen : a.len + h.payload.length < 2 ^ 63) :
    Outcome.fails checkUtf8 (onDataFrame o a h.toFrame) =
      (o.messageHandler && h.fin &&
        Outcome.fails checkUtf8 ((complete o (a.typeWith h) (a.compressWith h)
          (a.extended h.payload)).map fun calls =>
            (Assembly.idle, calls ++ deliverFrame o (a.typeWith h) h.toFrame))) := by
  cases hhandler : o.messageHandler with
  | false =>
    unfold onDataFrame
    rw [hhandler]
    exact deliverFrame_fails _ _
  | true =>
    rw [onDataFrame_eq hhandler ha.buffered hlen]
    cases h.fin with
    | false => exact deliverFrame_fails _ _
    | true => rfl

/-- What `Parse` does about a complete frame. -/
def Head.outcome (o : Options) (a : Assembly) (h : Head) : Except Err (Assembly × Log) :=
  if isMessageTooLarge o (wrap64 (a.len + h.payload.length)) then .error .messageTooLarge
  else if maxControlFramePayloadSize < h.payload.length && isControl h.opcode then
    .error .controlMessageTooBig
  else
    match validFrame o h.opcode h.fin h.rsv1 h.rsv2 h.rsv3 a.expectingFragments with
    | some e => .error e
    | none => onFrame o a h.toFrame

theorem validFrame_isSome (op : MessageType) (fin r₁ r₂ r₃ e : Bool) :
    (validFrame o op fin r₁ r₂ r₃ e).isSome =
      ((r₁ && !o.enableCompression) || (r₂ || r₃) ||
        (binaryMessage < op && op < closeMessage) ||
        (!fin && (op != fragmentMessage && op != textMessage && op != binaryMessage)) ||
        (e && (op == textMessage || op == binaryMessage))) := by
  unfold validFrame
  split
  · next h1 => rw [h1]; rfl
  next h1 =>
  split
  · next h2 => simp [h2]
  next h2 =>
  split
  · next h3 => simp [h3]
  next h3 =>
  split
  · next h4 => simp [h4]
  next h4 =>
  split
  · next h5 => simp [h5]
  next h5 =>
  simp only [Bool.not_eq_true] at h1 h2 h3 h4 h5
  rw [h1, h2, h3, h4, h5]
  rfl

theorem outcome_fails_eq (hlen : a.len + h.payload.length < 2 ^ 63) :
    Outcome.fails checkUtf8 (h.outcome o a) =
      (isMessageTooLarge o (a.len + h.payload.length) ||
        (maxControlFramePayloadSize < h.payload.length && isControl h.opcode) ||
        (validFrame o h.opcode h.fin h.rsv1 h.rsv2 h.rsv3 a.expectingFragments).isSome ||
        Outcome.fails checkUtf8 (onFrame o a h.toFrame)) := by
  unfold Head.outcome
  rw [wrap64_of_lt (by omega) (by omega)]
  cases isMessageTooLarge o (a.len + h.payload.length) with
  | true => rfl
  | false =>
    cases maxControlFramePayloadSize < h.payload.length && isControl h.opcode with
    | true => rfl
    | false =>
      cases validFrame o h.opcode h.fin h.rsv1 h.rsv2 h.rsv3 a.expectingFragments with
      | some e => rfl
      | none => rfl

theorem outcome_fails_late (hlen : a.len + h.payload.length < 2 ^ 63) :
    Outcome.fails checkUtf8 (h.outcome o a) =
      (!h.passes o a ||
        ((binaryMessage < h.opcode && h.opcode < closeMessage) ||
          (!h.fin && (h.opcode != fragmentMessage && h.opcode != textMessage &&
            h.opcode != binaryMessage)) ||
          (a.expectingFragments && (h.opcode == textMessage || h.opcode == binaryMessage)) ||
          Outcome.fails checkUtf8 (onFrame o a h.toFrame))) := by
  rw [outcome_fails_eq hlen, validFrame_isSome, Head.passes]
  simp only [Bool.not_and, Bool.not_or, Bool.not_not]
  ac_rfl

theorem onFrame_control (hop : isControl h.opcode = true) :
    onFrame o a h.toFrame = .ok (a, [Call.protocol h.opcode h.payload]) := by
  unfold onFrame Head.toFrame
  dsimp only
  rw [if_neg (by rcases isControl_cases hop with hop | hop | hop <;> rw [hop] <;> decide),
    if_pos hop]

theorem onFrame_data (hop : h.opcode = fragmentMessage ∨ isTextOrBinary h.opcode) :
    onFrame o a h.toFrame = onDataFrame o a h.toFrame := by
  exact if_pos hop

theorem data_outcome_fails (hlen : a.len + h.payload.length < 2 ^ 63)
    (hop : (h.opcode == fragmentMessage) = true ∨ decide (isTextOrBinary h.opcode) = true) :
    Outcome.fails checkUtf8 (h.outcome o a) =
      (!h.passes o a || ((a.expectingFragments && decide (isTextOrBinary h.opcode)) ||
        Outcome.fails checkUtf8 (onDataFrame o a h.toFrame))) := by
  have hcases : h.opcode = fragmentMessage ∨ h.opcode = textMessage ∨ h.opcode = binaryMessage :=
    hop.imp eq_of_beq of_decide_eq_true
  rw [outcome_fails_late hlen, onFrame_data hcases]
  rcases hcases with hop | hop | hop
  · rw [hop]
    cases h.fin <;> rfl
  · rw [hop]
    cases h.fin <;> rfl
  · rw [hop]
    cases h.fin <;> rfl

variable {negotiated : Bool}

section Kinds

variable (ha : a.Tracks o inMessage) (hlen : a.len + h.payload.length < 2 ^ 63)

include hlen

theorem control_outcome_fails (hop : isControl h.opcode = true) :
    Outcome.fails checkUtf8 (h.outcome o a) =
      (!h.passes o a ||
        (!h.fin || (h.opcode == closeMessage && !normalClosure checkUtf8 h.payload))) := by
  have hcalls : Outcome.fails checkUtf8 (onFrame o a h.toFrame) =
      (Call.protocol h.opcode h.payload).fails checkUtf8 := by
    rw [onFrame_control hop]
    exact Bool.or_false _
  rw [outcome_fails_late hlen, hcalls, protocol_fails hop]
  rcases isControl_cases hop with hop | hop | hop <;> rw [hop] <;> cases h.fin <;>
    cases a.expectingFragments <;> rfl

theorem reserved_outcome_fails (hcontrol : isControl h.opcode = false)
    (hdata : decide (isTextOrBinary h.opcode) = false)
    (hfrag : (h.opcode == fragmentMessage) = false) :
    Outcome.fails checkUtf8 (h.outcome o a) = true := by
  have herror : Outcome.fails checkUtf8 (onFrame o a h.toFrame) = true := by
    have hnot : ¬ (h.opcode = fragmentMessage ∨ isTextOrBinary h.opcode) :=
      not_or.2 ⟨beq_eq_false_iff_ne.1 hfrag, of_decide_eq_false hdata⟩
    have hframe : onFrame o a h.toFrame = .error .invalidFragmentMessage :=
      (if_neg hnot).trans (if_neg (Bool.eq_false_iff.1 hcontrol))
    rw [hframe]
    rfl
  rw [outcome_fails_late hlen, herror, Bool.or_true, Bool.or_true]

include ha

theorem placed_outcome_fails (t : MessageType) (compress : Bool)
    (hop : (h.opcode == fragmentMessage) = true ∨ decide (isTextOrBinary h.opcode) = true)
    (hplace : (o.messageHandler && inMessage && decide (isTextOrBinary h.opcode)) = false)
    (htype : o.messageHandler = true → a.typeWith h = t ∧ isTextOrBinary t)
    (hcompress : o.messageHandler = true → a.compressWith h = compress) :
    Outcome.fails checkUtf8 (h.outcome o a) =
      (!h.passes o a || !(!o.messageHandler || !h.fin ||
        delivers o checkUtf8 t compress (a.extended h.payload))) := by
  rw [data_outcome_fails hlen hop, ha.expecting, hplace, Bool.false_or, onDataFrame_fails ha hlen]
  cases hhandler : o.messageHandler with
  | false => rfl
  | true =>
    obtain ⟨htype, ht⟩ := htype hhandler
    rw [htype, hcompress hhandler, complete_fails_data ht]
    simp only [Bool.not_or, Bool.not_not]

theorem stray_outcome_fails (hop : (h.opcode == fragmentMessage) = true)
    (hin : inMessage = false) :
    Outcome.fails checkUtf8 (h.outcome o a) = (!h.passes o a || !strayUnnoticed o h) := by
  have hopcode := eq_of_beq hop
  have hdata : decide (isTextOrBinary h.opcode) = false := by
    rw [hopcode]
    rfl
  rw [data_outcome_fails hlen (.inl hop), hdata, Bool.and_false, Bool.false_or,
    onDataFrame_fails ha hlen, strayUnnoticed]
  cases hhandler : o.messageHandler with
  | false => rfl
  | true =>
    have hidle := ha.idle hhandler hin
    have htype : a.typeWith h = fragmentMessage := by
      rw [hidle]
      exact hopcode
    have hcompress : a.compressWith h = h.rsv1 := by
      rw [hidle]
      rfl
    have hextended : a.extended h.payload = h.payload := by
      rw [hidle]
      rfl
    rw [htype, hcompress, hextended, complete_fails_stray]
    simp only [Bool.not_or, Bool.not_not]

theorem compress_outcome_fails (hpasses : h.passes o a = true) (hrsv1 : h.rsv1 = true)
    (hstray : (h.opcode == fragmentMessage && !inMessage) = false)
    (hinside : (decide (isTextOrBinary h.opcode) && inMessage) = false) :
    Outcome.fails checkUtf8 (h.outcome o a) = !compressUnnoticed o checkUtf8 a h := by
  unfold compressUnnoticed
  cases hcontrol : isControl h.opcode with
  | true =>
    rw [control_outcome_fails hlen hcontrol, hpasses, if_pos rfl, Bool.not_true, Bool.false_or,
      Bool.not_and, Bool.not_or, bne, Bool.not_not]
  | false =>
    rw [if_neg Bool.false_ne_true]
    have hplace : (o.messageHandler && inMessage && decide (isTextOrBinary h.opcode)) = false := by
      rw [Bool.and_assoc, Bool.and_comm inMessage, hinside, Bool.and_false]
    cases hfrag : h.opcode == fragmentMessage with
    | true =>
      have hin : inMessage = true := by
        rw [hfrag, Bool.true_and, Bool.not_eq_false'] at hstray
        exact hstray
      have hzero : o.messageHandler = true → a.msgType ≠ 0 := by
        intro hhandler
        rcases ha.typed hhandler hin with ht | ht <;> rw [ht] <;> decide
      rw [if_pos rfl, placed_outcome_fails ha hlen a.msgType a.compress (.inl hfrag) hplace
        (fun hhandler => ⟨if_neg (hzero hhandler), ha.typed hhandler hin⟩)
        (fun hhandler => if_neg (hzero hhandler)), hpasses, Bool.not_true, Bool.false_or]
    | false =>
      cases hdata : decide (isTextOrBinary h.opcode) with
      | false =>
        rw [reserved_outcome_fails hlen hcontrol hdata hfrag]
        rfl
      | true =>
        have hin : inMessage = false := by
          rw [hdata] at hinside
          exact hinside
        rw [placed_outcome_fails ha hlen h.opcode true (.inr hdata) hplace ?_ ?_,
          hpasses]
        · cases hhandler : o.messageHandler with
          | false => rfl
          | true =>
            rw [ha.idle hhandler hin]
            rfl
        · intro hhandler
          rw [ha.idle hhandler hin]
          exact ⟨rfl, of_decide_eq_true hdata⟩
        · intro hhandler
          rw [ha.idle hhandler hin]
          exact hrsv1

theorem illegal_outcome_fails (hillegal : h.illegal negotiated inMessage = true) :
    Outcome.fails checkUtf8 (h.outcome o a) = !unnoticed o checkUtf8 inMessage a h := by
  unfold unnoticed
  cases hpasses : h.passes o a with
  | false =>
    rw [outcome_fails_late hlen, hpasses]
    rfl
  | true =>
    cases hstray : h.opcode == fragmentMessage && !inMessage with
    | true =>
      rw [Bool.and_eq_true, Bool.not_eq_true'] at hstray
      rw [stray_outcome_fails ha hlen hstray.1 hstray.2, hpasses]
      rfl
    | false =>
      cases hinside : decide (isTextOrBinary h.opcode) && inMessage with
      | true =>
        rw [Bool.and_eq_true] at hinside
        rw [data_outcome_fails hlen (.inr hinside.1), hpasses, ha.expecting, hinside.1,
          hinside.2, onDataFrame_fails ha hlen]
        cases o.messageHandler <;> rfl
      | false =>
        cases hrsv1 : h.rsv1 with
        | true =>
          exact compress_outcome_fails ha hlen hpasses hrsv1 hstray hinside
        | false =>
          -- without any bit set the frame is fragmented and must not be, or its opcode is reserved
          simp only [Head.passes, Bool.and_eq_true, Bool.not_eq_true'] at hpasses
          simp only [Head.illegal, hstray, hinside, hrsv1, hpasses, Bool.false_or, Bool.or_false,
            Bool.false_and, Bool.or_eq_true, Bool.and_eq_true, Bool.not_eq_true', bne_iff_ne]
              at hillegal
          rcases hillegal with ⟨hcontrol, hfin⟩ | ⟨⟨hcontrol, hdata⟩, hfrag⟩
          · rw [control_outcome_fails hlen hcontrol, hfin]
            simp
          · exact reserved_outcome_fails hlen hcontrol hdata (beq_eq_false_iff_ne.2 hfrag)

end Kinds

/-! ## Sequences of frames -/

theorem onDataFrame_len {r : Assembly × Log} (hhandler : o.messageHandler = true)
    (ha : a.len < 2 ^ 63) (hpayload : h.payload.length < 2 ^ 63)
    (hok : onDataFrame o a h.toFrame = .ok r) : a.len + h.payload.length < 2 ^ 63 := by
  by_contra hlong
  cases hm : a.message with
  | none =>
    have hzero : a.len = 0 := by
      rw [Assembly.len, hm]
      rfl
    omega
  | some m =>
    have hlen : a.len = m.length := by
      rw [Assembly.len, hm]
      rfl
    have hne : h.payload ≠ [] := by
      intro hnil
      rw [hnil] at hlong
      exact hlong ha
    have happ : appendMessage a.message h.payload = .error appendTooLong := by
      unfold appendMessage
      rw [if_neg hne, hm]
      exact if_neg (by omega)
    unfold onDataFrame at hok
    by_cases hzero : a.msgType = 0
    · simp only [hzero, ↓reduceIte, hhandler, Head.toFrame, happ] at hok
      cases hok
    · simp only [hzero, ↓reduceIte, hhandler, Head.toFrame, happ] at hok
      cases hok

theorem legal_cases (hlegal : h.illegal negotiated inMessage = false) :
    isControl h.opcode = true ∨
      isControl h.opcode = false ∧ (h.opcode = fragmentMessage ∧ inMessage = true ∨
        isTextOrBinary h.opcode ∧ inMessage = false) := by
  simp only [Head.illegal, Bool.or_eq_false_iff, Bool.and_eq_false_iff, Bool.not_eq_false',
    beq_eq_false_iff_ne, bne_eq_false_iff_eq] at hlegal
  obtain ⟨⟨⟨⟨⟨⟨hstray, hinside⟩, -⟩, hreserved⟩, -⟩, -⟩, -⟩ := hlegal
  cases hcontrol : isControl h.opcode with
  | true => exact .inl rfl
  | false =>
    rw [hcontrol] at hreserved
    refine .inr ⟨rfl, ?_⟩
    rcases hreserved with (hfalse | hdata) | hfrag
    · cases hfalse
    · rw [hdata] at hinside
      exact .inr ⟨of_decide_eq_true hdata, hinside.resolve_left nofun⟩
    · exact .inl ⟨hfrag, hstray.resolve_left (not_not_intro hfrag)⟩

theorem outcome_ok {r : Assembly × Log} (hok : h.outcome o a = .ok r) :
    validFrame o h.opcode h.fin h.rsv1 h.rsv2 h.rsv3 a.expectingFragments = none ∧
      onFrame o a h.toFrame = .ok r := by
  unfold Head.outcome at hok
  split at hok
  · cases hok
  split at hok
  · cases hok
  cases hvalid : validFrame o h.opcode h.fin h.rsv1 h.rsv2 h.rsv3 a.expectingFragments with
  | some e => rw [hvalid] at hok; cases hok
  | none =>
    rw [hvalid] at hok
    exact ⟨rfl, hok⟩

theorem Assembly.Tracks.typeWith_ne (ha : a.Tracks o inMessage)
    (hlegal : h.illegal negotiated inMessage = false) (hdata : isControl h.opcode = false) :
    a.typeWith h ≠ 0 := by
  unfold Assembly.typeWith
  split
  · next hzero =>
    rcases legal_cases hlegal with hcontrol | ⟨-, ⟨-, hin⟩ | ⟨hop, -⟩⟩
    · cases hdata.symm.trans hcontrol
    · exact absurd hzero (ha.set hin)
    · rcases hop with hop | hop <;> rw [hop] <;> decide
  · assumption

theorem outcome_tracks {a' : Assembly} {calls : Log} (ha : a.Tracks o inMessage)
    (hlen : a.len < 2 ^ 63) (hpayload : h.payload.length < 2 ^ 63)
    (hlegal : h.illegal negotiated inMessage = false) (hok : h.outcome o a = .ok (a', calls)) :
    a'.Tracks o (h.inMessage inMessage) := by
  have hon := (outcome_ok hok).2
  unfold Head.inMessage
  rcases legal_cases hlegal with hcontrol | ⟨hcontrol, hplace⟩
  · rw [onFrame_control hcontrol] at hon
    cases hon
    rw [if_pos hcontrol]
    exact ha
  · rw [onFrame_data (hplace.imp And.left And.left)] at hon
    rw [hcontrol, if_neg Bool.false_ne_true]
    cases hhandler : o.messageHandler with
    | false =>
      rw [onDataFrame_unhandled hhandler] at hon
      cases hon
      have hexpecting := ha.expecting
      rw [hhandler] at hexpecting
      refine ⟨by rw [hhandler]; exact hexpecting, fun h => ?_, fun h => ?_,
        fun _ => ha.typeWith_ne hlegal hcontrol, ha.buffered⟩ <;> cases hhandler.symm.trans h
    | true =>
      have hsum := onDataFrame_len hhandler hlen hpayload hon
      rw [onDataFrame_eq hhandler ha.buffered hsum] at hon
      cases hfin : h.fin with
      | true =>
        rw [hfin] at hon
        cases hcomplete : complete o (a.typeWith h) (a.compressWith h) (a.extended h.payload) with
        | error e => rw [hcomplete] at hon; cases hon
        | ok calls =>
          rw [hcomplete] at hon
          cases hon
          exact ⟨by rw [Bool.not_true, Bool.and_false]; rfl, fun _ _ => rfl, nofun, nofun, nofun⟩
      | false =>
        rw [hfin] at hon
        cases hon
        refine ⟨by rw [hhandler]; rfl, nofun, fun _ _ => ?_,
          fun _ => ha.typeWith_ne hlegal hcontrol, ?_⟩
        · dsimp only [Assembly.typeWith]
          rcases hplace with ⟨-, hin⟩ | ⟨hdata, hin⟩
          · have ht := ha.typed hhandler hin
            rw [if_neg (by rcases ht with ht | ht <;> rw [ht] <;> decide)]
            exact ht
          · rw [ha.idle hhandler hin]
            exact hdata
        · split
          · nofun
          · next hne => exact fun heq => hne (Option.some.inj heq)

theorem next_complete {k : Cfg} (hx : completeFrame x = some h) (hsize : h.size = x.length)
    (hlen : x.length < 2 ^ 63) :
    (scanner o).next k x =
      match h.outcome o k.toAssembly with
      | .error e => .stop (k.log ++ closeNotice e, e)
      | .ok (a, calls) => .step (x.length - 1) ⟨a, k.log ++ calls⟩ := by
  rw [scanner_next, Cfg.next, nextFrame_complete hx hlen, Head.outcome]
  cases isMessageTooLarge o (wrap64 (k.len + h.payload.length)) with
  | true => rfl
  | false =>
    cases maxControlFramePayloadSize < h.payload.length && isControl h.opcode with
    | true => rfl
    | false =>
      cases validFrame o h.opcode h.fin h.rsv1 h.rsv2 h.rsv3 k.expectingFragments with
      | some e => rfl
      | none =>
        simp only [Bool.false_eq_true, if_false, Cfg.take]
        cases onFrame o k.toAssembly h.toFrame with
        | error e => rfl
        | ok r =>
          rw [Head.toFrame, Int.toNat_natCast, hsize]

theorem run_complete {k : Cfg} (hk : (scanner o).Valid k) (hx : completeFrame x = some h)
    (hsize : h.size = x.length) (hlen : x.length < 2 ^ 63) :
    (∃ a' calls, h.outcome o k.toAssembly = .ok (a', calls) ∧
      (scanner o).Consumes k x ⟨a', k.log ++ calls⟩) ∨
    (∃ e, h.outcome o k.toAssembly = .error e ∧
      ∀ ys, (scanner o).run k (x ++ ys) = .error (k.log ++ closeNotice e, e)) := by
  have hnext := next_complete (o := o) (k := k) hx hsize hlen
  have hpos : 2 ≤ x.length := Nat.le_trans (Nat.le_add_left 2 _) (completeFrame_payload hx)
  cases houtcome : h.outcome o k.toAssembly with
  | error e =>
    rw [houtcome] at hnext
    refine .inr ⟨e, rfl, fun ys => (scanner o).run_stop ?_ ?_⟩
    · intro hnil
      rw [(append_eq_nil_iff.1 hnil).1] at hpos
      cases hpos
    · rw [(scanner o).stable ys hk (by rw [hnext]; nofun), hnext]
  | ok r =>
    obtain ⟨a', calls⟩ := r
    rw [houtcome] at hnext
    exact .inl ⟨a', calls, rfl, (scanner o).consumes_step hk hnext (by omega)⟩

theorem follow_cons {out : Bool} {xs : List Bytes}
    (hfollow : follow negotiated inMessage (x :: xs) = some out) :
    ∃ h, completeFrame x = some h ∧ h.size = x.length ∧ h.illegal negotiated inMessage = false ∧
      follow negotiated (h.inMessage inMessage) xs = some out := by
  rw [follow] at hfollow
  cases hx : completeFrame x with
  | none => rw [hx] at hfollow; cases hfollow
  | some h =>
    rw [hx] at hfollow
    dsimp only at hfollow
    split at hfollow
    · cases hfollow
    next hlegal =>
    rw [not_or, not_not, Bool.not_eq_true] at hlegal
    exact ⟨h, rfl, hlegal.1, hlegal.2, hfollow⟩

theorem follow_append (inMessage : Bool) (xs ys : List Bytes) :
    follow negotiated inMessage (xs ++ ys) =
      (follow negotiated inMessage xs).bind fun inMessage => follow negotiated inMessage ys := by
  induction xs generalizing inMessage with
  | nil => rfl
  | cons x xs ih =>
    rw [cons_append, follow, follow]
    cases completeFrame x with
    | none => rfl
    | some h =>
      dsimp only
      split
      · rfl
      · exact ih _

/-- The frames within the rules are all consumed, if there is no error, and the fields say whether a
message is in progress. -/
theorem follow_run {inMessage' : Bool} {xs : List Bytes} {k k' : Cfg} {left : Bytes}
    (hk : (scanner o).Valid k) (ha : k.toAssembly.Tracks o inMessage)
    (hfollow : follow negotiated inMessage xs = some inMessage')
    (hlen : ∀ x ∈ xs, x.length < 2 ^ 63) (hrun : (scanner o).run k xs.flatten = .ok (k', left)) :
    k'.toAssembly.Tracks o inMessage' ∧ (scanner o).Valid k' ∧
      (scanner o).Consumes k xs.flatten k' := by
  induction xs generalizing k inMessage with
  | nil =>
    rw [flatten_nil, Scanner.run_nil] at hrun
    cases hrun
    cases hfollow
    exact ⟨ha, hk, (scanner o).consumes_nil _⟩
  | cons x xs ih =>
    obtain ⟨h, hx, hsize, hlegal, hrest⟩ := follow_cons hfollow
    have hxlen := hlen x mem_cons_self
    rw [flatten_cons] at hrun ⊢
    rcases run_complete hk hx hsize hxlen with ⟨a', calls, hok, hcons⟩ | ⟨e, -, hstop⟩
    · have hpayload := completeFrame_payload hx
      have ha' := outcome_tracks ha hk.lt (by omega) hlegal hok
      rw [hcons] at hrun
      obtain ⟨htracks, hvalid', hconsumes⟩ := ih (hcons.valid hk) ha' hrest
        (fun y hy => hlen y (mem_cons_of_mem x hy)) hrun
      exact ⟨htracks, hvalid', hcons.append hconsumes⟩
    · rw [hstop] at hrun
      cases hrun

theorem newCfg_tracks (o : Options) : newCfg.toAssembly.Tracks o false :=
  ⟨(Bool.and_false _).symm, fun _ _ => rfl, nofun, nofun, nofun⟩

theorem fails_of_outcome {k : Cfg} (hk : (scanner o).Valid k) (hx : completeFrame x = some h)
    (hsize : h.size = x.length) (hlen : x.length < 2 ^ 63)
    (hopen : k.log.any (Call.fails checkUtf8) = false) :
    Result.fails checkUtf8 (result ((scanner o).run k x)) =
      Outcome.fails checkUtf8 (h.outcome o k.toAssembly) := by
  rcases run_complete hk hx hsize hlen with ⟨a', calls, hok, hcons⟩ | ⟨e, herror, hstop⟩
  · have hfails : Result.fails checkUtf8 (result ((scanner o).run k x)) =
        (k.log ++ calls).any (Call.fails checkUtf8) := by
      rw [hcons.run]
      exact Bool.false_or _
    rw [hfails, hok, any_append, hopen]
    exact Bool.false_or _
  · have hrun := hstop []
    rw [append_nil] at hrun
    rw [hrun, herror]
    rfl

/-- Behind any sequence of frames within the rules that has left the connection open, an illegal
frame fails the connection as soon as all of it has arrived, unless it is one of those that go
unnoticed. -/
theorem grammar_enforced_iff (o : Options) (checkUtf8 : Bytes → Bool) (negotiated : Bool)
    (frames : List Bytes) (g : Bytes) (h : Head) (inMessage : Bool) (log : Log) (c : Conn)
    (segs : List Bytes) (hfollow : follow negotiated false frames = some inMessage)
    (hbefore : parse o newConn [] frames.flatten = (log, .ok c))
    (hopen : log.any (Call.fails checkUtf8) = false)
    (hg : completeFrame g = some h) (hsize : h.size = g.length)
    (hillegal : h.illegal negotiated inMessage = true)
    (hlen : ∀ x ∈ frames, x.length < 2 ^ 63) (hint : c.toAssembly.len + g.length < 2 ^ 63)
    (hcut : segs.flatten = frames.flatten ++ g)
    (hread : fitsReadLimit o newConn [] segs = true) :
    Result.fails checkUtf8 (feed o newConn [] segs) = true ↔
      unnoticed o checkUtf8 inMessage c.toAssembly h = false := by
  rw [parse_newConn] at hbefore
  cases hrun : (scanner o).run newCfg frames.flatten with
  | error e => rw [hrun] at hbefore; cases hbefore
  | ok r =>
    obtain ⟨k, left⟩ := r
    rw [hrun] at hbefore
    obtain ⟨rfl, rfl⟩ : k.log = log ∧ k.waiting left = c := by
      cases hbefore
      exact ⟨rfl, rfl⟩
    obtain ⟨htracks, hvalid, hcons⟩ :=
      follow_run (newCfg_valid o) (newCfg_tracks o) hfollow hlen hrun
    have hpayload := completeFrame_payload hg
    have hheld : (k.waiting left).toAssembly = k.toAssembly := rfl
    rw [hheld] at hint ⊢
    rw [feed_newConn_of_fits hread, hcut, hcons, fails_of_outcome hvalid hg hsize (by omega) hopen,
      illegal_outcome_fails htracks (by omega) hillegal, Bool.not_eq_true']

def compressOptions : Options := { plainOptions with enableCompression := true }

/-- A text frame inside a message in two pieces. -/
theorem grammar_enforced_iff_inside :
    Result.fails (fun _ => true)
      (feed plainOptions newConn [] [[0x01, 0x01, 97, 0x81], [0x01, 98]]) = true :=
  (grammar_enforced_iff plainOptions (fun _ => true) false [[0x01, 0x01, 97]] [0x81, 0x01, 98]
    { fin := true, rsv1 := false, rsv2 := false, rsv3 := false, opcode := textMessage
      payload := [98], size := 3 }
    true _ _ _ (by decide) rfl (by decide) (by decide) rfl (by decide)
    (by decide) (by decide) rfl (by decide)).2 (by decide)

/-- A continuation of no message, with a message to follow or empty; a ping with the bit for
compression; a compressed text where compression has not been negotiated; a text inside a message
where there is no message handler.  Nothing of this fails the connection. -/
theorem illegal_frames_are_consumed :
    (∀ g : Bytes, g = [0x00, 0x01, 97] ∨ g = [0x80, 0x00] →
      ((completeFrame g).map (Head.illegal true false)) = some true ∧
        Result.fails (fun _ => true) (feed plainOptions newConn [] [g]) = false) ∧
    (((completeFrame [0xC9, 0x00]).map (Head.illegal true false)) = some true ∧
      Result.fails (fun _ => true) (feed compressOptions newConn [] [[0xC9, 0x00]]) = false) ∧
    (((completeFrame [0xC1, 0x01, 97]).map (Head.illegal false false)) = some true ∧
      Result.fails (fun _ => true) (feed compressOptions newConn [] [[0xC1, 0x01, 97]]) = false) ∧
    (((completeFrame [0x81, 0x01, 98]).map (Head.illegal false true)) = some true ∧
      follow false false [[0x01, 0x01, 97]] = some true ∧
      Result.fails (fun _ => true) (feed { plainOptions with messageHandler := false } newConn []
        [[0x01, 0x01, 97], [0x81, 0x01, 98]]) = false) := by
  refine ⟨?_, by decide, by decide, by decide⟩
  rintro g (rfl | rfl)
  · decide
  · decide

end Nbio.Websocket
