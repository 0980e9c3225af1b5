import Nbio.Websocket.Emission
import Nbio.Websocket.Grammar

/-!
# The status of a close message

A peer that closes says why: `WriteClose` sends a code and a reason, `handleWsMessage` records them
at the other end as the error of the connection, `CloseAndClean` gives the error to the `OnClose`
callback, and `CloseCode` and `CloseReason` are there to take it apart.

What is recorded is a pointer to a `CloseError`, and what the two functions look for with
`errors.As` is a `CloseError`.  These are different types, so that no status arrives
(`close_status_lost`).
-/

namespace Nbio.Websocket

open Nbio.Go Nbio.Lib List

/-! ## Errors -/

/-- An error by its dynamic type. -/
inductive GoError where
  | closeError (code : Int) (reason : Bytes)
  /-- A `*CloseError`, which is an error too since `Error` has a value receiver. -/
  | closeErrorPtr (code : Int) (reason : Bytes)
  /-- What `errors.New` returns, and `fmt.Errorf` without `%w`. -/
  | errorString (text : Bytes)
  /-- What `fmt.Errorf` returns with `%w`. -/
  | wrapError (text : Bytes) (err : GoError)
deriving DecidableEq, Repr

/-- `errors.As` with a target of type `*CloseError`: the first error of the chain that can be
assigned to a `CloseError`. -/
def asCloseError : GoError → Option (Int × Bytes)
  | .closeError code reason => some (code, reason)
  -- a pointer cannot be assigned to it, and has neither `As` nor `Unwrap`
  | .closeErrorPtr _ _ => none
  | .errorString _ => none
  | .wrapError _ err => asCloseError err

/-- `CloseCode`; `errors.As` is false for a nil error. -/
def CloseCode (err : Option GoError) : Int :=
  match err.bind asCloseError with
  | some ce => ce.1
  | none => -1

def CloseReason (err : Option GoError) : Bytes :=
  match err.bind asCloseError with
  | some ce => ce.2
  | none => []

/-- The errors that `handleWsMessage` records. -/
def CloseErr.goError : CloseErr → GoError
  | .invalidUtf8 => .errorString (ascii "websocket: invalid UTF-8 bytes")
  | .invalidCloseCode => .errorString (ascii "websocket: invalid close code")
  | .closeError code reason => .closeErrorPtr code reason
  | .invalidFragmentMessage => .errorString (ascii "invalid fragment message")
  | .invalidMessageType opcode => .errorString (ascii s!"websocket: invalid message type: {opcode}")

/-! ## The end of a connection -/

/-- What closing reads and changes of a `Conn`, and the errors that `onClose` has been called
with. -/
structure Receiver where
  conn : Conn
  closeErr : Option GoError
  onClose : List (Option GoError)
deriving DecidableEq, Repr

def Receiver.SetCloseError (r : Receiver) (err : Option GoError) : Receiver :=
  if r.closeErr = none then { r with closeErr := err } else r

/-- `CloseAndClean`, with a callback that is set. -/
def Receiver.CloseAndClean (r : Receiver) (err : Option GoError) : Receiver :=
  if r.conn.closed then r
  else
    let r := r.SetCloseError err
    { r with
      conn := { r.conn with closed := true, bytesCached := none, message := none }
      onClose := r.onClose ++ [r.closeErr] }

/-- An effect of `handleWsMessage`.  `Close` closes the connection below, which leads to a call of
`CloseAndClean` later. -/
def Receiver.effect (r : Receiver) : Effect → Receiver
  | .setCloseError e => r.SetCloseError (some e.goError)
  | _ => r

/-- The calls of `Parse` are handled. -/
def Receiver.handle (checkUtf8 : Bytes → Bool) (r : Receiver) : Call → Receiver
  | .message opcode data | .protocol opcode data =>
    (handleWsMessage checkUtf8 opcode data).foldl Receiver.effect r
  | .dataFrame _ _ _ | .writeClose _ _ => r

/-- What else happens to a connection: an error is recorded, or the engine reports that the
connection below is closed. -/
inductive CloseEvent where
  | setCloseError (err : Option GoError)
  | closeAndClean (err : Option GoError)
deriving DecidableEq, Repr

def Receiver.step (r : Receiver) : CloseEvent → Receiver
  | .setCloseError err => r.SetCloseError err
  | .closeAndClean err => r.CloseAndClean err

def CloseEvent.isCloseAndClean : CloseEvent → Bool
  | .setCloseError _ => false
  | .closeAndClean _ => true

section FirstWins

variable {r : Receiver} {e : GoError}

theorem SetCloseError_of_some (h : r.closeErr = some e) (err : Option GoError) :
    r.SetCloseError err = r := by
  have hne : r.closeErr ≠ none := by
    rw [h]
    exact Option.some_ne_none e
  exact if_neg hne

theorem CloseAndClean_of_closed (h : r.conn.closed = true) (err : Option GoError) :
    r.CloseAndClean err = r := if_pos h

theorem run_closed (h : r.conn.closed = true) (events : List CloseEvent) :
    (events.foldl Receiver.step r).onClose = r.onClose := by
  induction events generalizing r with
  | nil => rfl
  | cons event events ih =>
    rw [foldl_cons]
    cases event with
    | setCloseError err =>
      have hsame : (r.SetCloseError err).conn = r.conn ∧
          (r.SetCloseError err).onClose = r.onClose := by
        unfold Receiver.SetCloseError
        split <;> exact ⟨rfl, rfl⟩
      have hrest := ih (by rw [hsame.1]; exact h)
      exact hrest.trans hsame.2
    | closeAndClean err =>
      rw [Receiver.step, CloseAndClean_of_closed h]
      exact ih h

theorem run_recorded (hopen : r.conn.closed = false) (h : r.closeErr = some e)
    {events : List CloseEvent} (hclose : events.any CloseEvent.isCloseAndClean = true) :
    (events.foldl Receiver.step r).onClose = r.onClose ++ [some e] := by
  induction events with
  | nil => cases hclose
  | cons event events ih =>
    rw [foldl_cons]
    cases event with
    | setCloseError err =>
      rw [Receiver.step, SetCloseError_of_some h]
      exact ih hclose
    | closeAndClean err =>
      rw [Receiver.step, Receiver.CloseAndClean, hopen, if_neg Bool.false_ne_true,
        SetCloseError_of_some h, run_closed rfl]
      dsimp only
      rw [h]

end FirstWins

/-! ## The frame of a close message -/

variable {o : Options} {p : Sender} {w w' : Sent} {t : MessageType} {data : Bytes}

def WriteClose (p : Sender) (w : Sent) (code : Nat) (reason : Bytes) : Option Err × Sent :=
  writeMessage p w closeMessage (putBeUint 2 code ++ reason)

def shortHead (isClient : Bool) (t : MessageType) (fin : Bool) (data : Bytes) : Head :=
  { fin := fin, rsv1 := false, rsv2 := false, rsv3 := false, opcode := t, payload := data
    size := 2 + keyLength isClient + data.length }

theorem lengthCode_short (hdata : data.length < 126) :
    lengthCode data.length = (UInt8.ofNat data.length, []) := if_pos hdata

theorem completeFrame_encode (ht : t.toNat < 16) (hdata : data.length < 126) (isClient fin : Bool)
    (u32 : UInt32) :
    completeFrame (encodeFrame isClient u32 t true fin data false) =
      some (shortHead isClient t fin data) := by
  have hrest := length_maskedPayload isClient u32 data
  have hbody := unmask_maskedPayload isClient u32 data []
  obtain ⟨hopcode, hfin, hres1, hres2, hres3⟩ := firstByte_bits ht false fin
  obtain ⟨hpayload, hmask⟩ := secondByte_bits (n := data.length) (by omega) isClient
  have hn : (UInt8.ofNat data.length).toNat = data.length := by
    rw [UInt8.toNat_ofNat']
    omega
  have hext : extLength data.length = 0 := by
    unfold extLength
    rw [if_neg (by omega), if_neg (by omega)]
  have hkey : keyLength isClient - 4 = 0 := Nat.sub_eq_zero_of_le (keyLength_le isClient)
  unfold encodeFrame completeFrame
  dsimp only at hbody ⊢
  rw [if_pos rfl, lengthCode_short hdata]
  rw [nil_append, length_nil, Nat.zero_add, hkey] at hbody
  rw [hpayload, hmask, hn, hext, if_pos rfl, nil_append, Nat.zero_add, hrest,
    if_pos (Nat.le_refl _), hopcode, hfin, hres1, hres2, hres3, hbody, shortHead]

theorem length_encode_short (hdata : data.length < 126) (isClient fin : Bool) (u32 : UInt32) :
    (shortHead isClient t fin data).size =
      (encodeFrame isClient u32 t true fin data false).length := by
  rw [length_encodeFrame, lengthCode_short hdata]
  rfl

theorem close_outcome {a : Assembly} {isClient fin : Bool} {r : Assembly × Log}
    (hok : (shortHead isClient closeMessage fin data).outcome o a = .ok r) :
    fin = true ∧ r = (a, [.protocol closeMessage data]) := by
  obtain ⟨hvalid, hon⟩ := outcome_ok hok
  cases fin with
  | true => exact ⟨rfl, (Except.ok.inj hon).symm⟩
  | false =>
    have hfragmented : validFrame o closeMessage false false false false a.expectingFragments =
        some (.controlMessageFragmented closeMessage) := rfl
    cases hfragmented.symm.trans hvalid

theorem writeFrames_extends (p : Sender) (t : MessageType) (fuel : Nat) (w : Sent)
    (sendOpcode compress : Bool) (data : Bytes) :
    w.frames <+: (writeFrames p (writeFrame p) t fuel w sendOpcode compress data).2.frames := by
  induction fuel generalizing w sendOpcode compress data with
  | zero => exact prefix_rfl
  | succ fuel ih =>
    rw [writeFrames]
    split
    · exact prefix_rfl
    · dsimp only
      generalize (if p.maxWebsocketFramePayloadSize < data.length then
        p.maxWebsocketFramePayloadSize
        else data.length) = n
      rcases writeFrame_cases p w t sendOpcode (n == data.length) (data.take n) compress with
        ⟨err, -, heq⟩ | ⟨-, heq⟩
      · exact ⟨[], by rw [heq, append_nil]⟩
      · rw [heq]
        refine List.IsPrefix.trans ?_ (ih _ false false _)
        exact prefix_append _ _

theorem writeMessage_control (ht : isControl t = true) (hdata : data ≠ [])
    (hsize : data.length ≤ maxControlFramePayloadSize)
    (hsent : writeMessage p w t data = (none, w')) :
    ∃ fin rest, ∃ piece : Bytes, piece.length ≤ data.length ∧
      w'.frames = w.frames ++
        encodeFrame p.isClient (p.rand w.count) t true fin piece false :: rest ∧
      (fin = true → piece = data ∧ rest = []) := by
  have hopen : p.closed = false := by
    cases hclosed : p.closed with
    | false => rfl
    | true =>
      rw [writeMessage, writeMessageBy, hclosed] at hsent
      cases hsent
  have hfits : (isControl t && decide (maxControlFramePayloadSize < data.length)) = false := by
    rw [decide_eq_false (Nat.not_lt.2 hsize), Bool.and_false]
  rw [writeMessage, writeMessageBy, hopen, if_neg Bool.false_ne_true, hfits,
    if_neg Bool.false_ne_true, compressed_control ht] at hsent
  dsimp only at hsent
  rw [if_pos hdata] at hsent
  obtain ⟨fuel, hfuel⟩ : ∃ fuel, data.length = fuel + 1 :=
    Nat.exists_eq_add_one_of_ne_zero fun hzero => hdata (eq_nil_of_length_eq_zero hzero)
  rw [hfuel] at hsent
  rcases Nat.lt_or_ge p.maxWebsocketFramePayloadSize data.length with hlt | hle
  · rcases writeFrames_of_lt fuel true false hlt with ⟨err, -, heq⟩ | ⟨-, heq⟩
    · rw [heq] at hsent
      cases hsent
    · rw [heq] at hsent
      obtain ⟨rest, hrest⟩ := writeFrames_extends p t fuel
        { count := w.count + 1
          frames := w.frames ++ [encodeFrame p.isClient (p.rand w.count) t true false
            (data.take p.maxWebsocketFramePayloadSize) false] }
        false false (data.drop p.maxWebsocketFramePayloadSize)
      rw [hsent, append_assoc] at hrest
      exact ⟨false, rest, _, length_take_le' _ _, hrest.symm, fun h => absurd h Bool.false_ne_true⟩
  · rw [writeFrames_of_le hdata hle] at hsent
    rcases writeFrame_cases p w t true true data false with ⟨err, -, heq⟩ | ⟨-, heq⟩
    · rw [heq] at hsent
      cases hsent
    · rw [heq] at hsent
      cases hsent
      exact ⟨true, [], data, Nat.le_refl _, rfl, fun _ => ⟨rfl, rfl⟩⟩

theorem close_delivered {c c' : Conn} {log : Log} {segs : List Bytes} (hdata : data ≠ [])
    (hsize : data.length ≤ maxControlFramePayloadSize)
    (hsent : writeMessage p w closeMessage data = (none, w'))
    (hcut : segs.flatten = (w'.frames.drop w.frames.length).flatten)
    (hopen : c.closed = false) (hboundary : c.bytesCached = none) (hwf : c.toAssembly.WF o)
    (hparsed : feed o c [] segs = (log, .ok c')) :
    log = [.protocol closeMessage data] ∧ c' = c := by
  unfold maxControlFramePayloadSize at hsize
  have hc : c = (⟨c.toAssembly, []⟩ : Cfg).waiting [] := by
    obtain ⟨a, closed, cached⟩ := c
    cases hopen
    cases hboundary
    rfl
  have hk : (scanner o).Valid ⟨c.toAssembly, []⟩ := hwf
  obtain ⟨fin, rest, piece, hpiece, hframes, hwhole⟩ := writeMessage_control rfl hdata hsize hsent
  rw [hframes, drop_left, flatten_cons] at hcut
  have hcases := feed_cases hk ((scanner o).settled_nil _) segs
  rw [← hc, hparsed, hcut, Scanner.feed, nil_append] at hcases
  rcases hcases with hrun | ⟨log', hlong, -⟩
  · have hlt : piece.length < 126 := by omega
    have hx :=
      completeFrame_encode (t := closeMessage) (by decide) hlt p.isClient fin (p.rand w.count)
    have hlength := length_encode_short (t := closeMessage) hlt p.isClient fin (p.rand w.count)
    have hshort := (length_encodeFrame_le p.isClient (p.rand w.count) closeMessage true fin piece
      false).2
    rcases run_complete hk hx hlength (by omega) with ⟨a, calls, hok, hcons⟩ | ⟨e, -, hstop⟩
    · obtain ⟨hfin, hcalls⟩ := close_outcome hok
      cases hcalls
      obtain ⟨rfl, rfl⟩ := hwhole hfin
      rw [hcons, flatten_nil, Scanner.run_nil] at hrun
      cases hrun
      exact ⟨rfl, hc.symm⟩
    · rw [hstop] at hrun
      cases hrun
  · cases hlong

/-! ## The round trip -/

variable {code : Nat}

theorem validCloseCode_lt (h : validCloseCode code = true) : code < 5000 := by
  unfold validCloseCode at h
  split at h <;> first | omega | cases h | skip
  simp only [Bool.and_eq_true, decide_eq_true_eq] at h
  exact h.2

theorem handleWsMessage_close {checkUtf8 : Bytes → Bool} {reason : Bytes}
    (hcode : validCloseCode code = true) (hutf8 : checkUtf8 reason = true) :
    handleWsMessage checkUtf8 closeMessage (putBeUint 2 code ++ reason) =
      closedByPeer code reason := by
  have hlt := validCloseCode_lt hcode
  have hread : beUint (putBeUint 2 code) = code := beUint_putBeUint (by omega)
  obtain ⟨b₀, b₁, hbytes⟩ := length_eq_two.1 (length_putBeUint 2 code)
  rw [hbytes] at hread ⊢
  have hclose : handleWsMessage checkUtf8 closeMessage ([b₀, b₁] ++ reason) =
      if !validCloseCode (beUint [b₀, b₁]) then refuse .invalidCloseCode []
      else if !checkUtf8 reason then refuse .invalidUtf8 (ascii "invalid UTF-8 bytes")
      else closedByPeer (beUint [b₀, b₁]) reason := rfl
  rw [hclose, hread, hcode, hutf8]
  rfl

theorem handle_close {checkUtf8 : Bytes → Bool} {reason : Bytes}
    (hcode : validCloseCode code = true) (hnormal : code ≠ 1000) (hutf8 : checkUtf8 reason = true)
    (r : Receiver) :
    r.handle checkUtf8 (.protocol closeMessage (putBeUint 2 code ++ reason)) =
      r.SetCloseError (some (.closeErrorPtr code reason)) := by
  rw [Receiver.handle, handleWsMessage_close hcode hutf8, closedByPeer, if_pos hnormal]
  rfl

theorem status_eq_iff {err : Option GoError} {reason : Bytes} :
    CloseCode err = code ∧ CloseReason err = reason ↔
      err.bind asCloseError = some (↑code, reason) := by
  unfold CloseCode CloseReason
  cases err.bind asCloseError with
  | none =>
    refine iff_of_false ?_ nofun
    rintro ⟨hcode, -⟩
    dsimp only at hcode
    omega
  | some ce =>
    rw [Option.some.injEq, Prod.ext_iff]

/-- A close message with a code other than 1000 arrives as a pointer to a `CloseError`, unless an
error has been recorded before.  `CloseCode` and `CloseReason` return its code and reason for the
error that the callback receives only if that is an earlier error that is a `CloseError` with the
same status. -/
theorem close_status_lost (p : Sender) (w w' : Sent) (o : Options) (checkUtf8 : Bytes → Bool)
    (r : Receiver) (code : Nat) (reason : Bytes) (segs : List Bytes) (log : Log) (c : Conn)
    (later : List CloseEvent) (hcode : validCloseCode code = true) (hnormal : code ≠ 1000)
    (hutf8 : checkUtf8 reason = true) (hreason : reason.length ≤ 123)
    (hsent : WriteClose p w code reason = (none, w'))
    (hcut : segs.flatten = (w'.frames.drop w.frames.length).flatten)
    (hopen : r.conn.closed = false) (hboundary : r.conn.bytesCached = none)
    (hwf : r.conn.toAssembly.WF o) (hparsed : feed o r.conn [] segs = (log, .ok c))
    (hclose : later.any CloseEvent.isCloseAndClean = true) :
    let handled := log.foldl (Receiver.handle checkUtf8) { r with conn := c }
    ∃ err, (later.foldl Receiver.step handled).onClose = r.onClose ++ [some err] ∧
      (r.closeErr = none → err = .closeErrorPtr code reason ∧
        CloseCode (some err) = -1 ∧ CloseReason (some err) = []) ∧
      (CloseCode (some err) = code ∧ CloseReason (some err) = reason ↔
        r.closeErr.bind asCloseError = some (↑code, reason)) := by
  intro handled
  have hdata : putBeUint 2 code ++ reason ≠ [] := by
    intro hnil
    have h := congrArg length hnil
    rw [length_append, length_putBeUint, length_nil] at h
    omega
  have hsize : (putBeUint 2 code ++ reason).length ≤ maxControlFramePayloadSize := by
    rw [length_append, length_putBeUint, maxControlFramePayloadSize]
    omega
  obtain ⟨rfl, rfl⟩ := close_delivered hdata hsize hsent hcut hopen hboundary hwf hparsed
  have hhandled : handled = r.SetCloseError (some (.closeErrorPtr code reason)) :=
    handle_close hcode hnormal hutf8 r
  rw [hhandled]
  cases hbefore : r.closeErr with
  | none =>
    have hset : r.SetCloseError (some (.closeErrorPtr code reason)) =
        { r with closeErr := some (.closeErrorPtr code reason) } := if_pos hbefore
    rw [hset]
    have hreported :=
      run_recorded (r := { r with closeErr := some (.closeErrorPtr code reason) }) hopen
      rfl hclose
    refine ⟨.closeErrorPtr code reason, hreported, fun _ => ⟨rfl, rfl, rfl⟩, ?_⟩
    rw [status_eq_iff]
    rfl
  | some err =>
    rw [SetCloseError_of_some hbefore]
    refine ⟨err, run_recorded hopen hbefore hclose, fun hnone => ?_, status_eq_iff⟩
    exact absurd hnone (Option.some_ne_none err)

def freshReceiver : Receiver := { conn := newConn, closeErr := none, onClose := [] }

/-- A server that goes away, with its frame in two pieces. -/
theorem close_status_lost_going_away :
    ∃ err, (freshReceiver.handle (fun _ => true) (.protocol closeMessage
          ([3, 233] ++ ascii "bye")) |>.step (.closeAndClean none)).onClose = [some err] ∧
      ¬ (CloseCode (some err) = 1001 ∧ CloseReason (some err) = ascii "bye") := by
  obtain ⟨err, hclosed, -, hlost⟩ := close_status_lost (plainServer 125 (by decide)) ⟨0, []⟩
    ⟨1, [[0x88, 5, 3, 233, 98, 121, 101]]⟩ plainOptions (fun _ => true) freshReceiver 1001
      (ascii "bye")
    [[0x88, 5, 3], [233, 98, 121, 101]] [.protocol closeMessage ([3, 233] ++ ascii "bye")] newConn
    [.closeAndClean none] (by decide) (by decide) rfl (by decide) (by decide) (by decide) rfl rfl
    (Assembly.idle_wf _) (by decide) rfl
  exact ⟨err, hclosed, fun h => absurd (hlost.1 h) nofun⟩

/-- The frame of `WriteClose(1001, "bye")` is parsed and handled, and the callback receives a
`*CloseError` with this code and reason, of which `CloseCode` says -1 and `CloseReason` nothing. -/
theorem close_status_unreadable :
    let sent := WriteClose (plainServer 125 (by decide)) ⟨0, []⟩ 1001 (ascii "bye")
    let parsed := feed plainOptions freshReceiver.conn [] sent.2.frames
    let r :=
      (parsed.1.foldl (Receiver.handle fun _ => true) freshReceiver).step (.closeAndClean none)
    sent.1 = none ∧ parsed.2 = .ok newConn ∧
      r.onClose = [some (.closeErrorPtr 1001 (ascii "bye"))] ∧
      r.onClose.map CloseCode = [-1] ∧ r.onClose.map CloseReason = [[]] := by
  decide

end Nbio.Websocket
