import Nbio.Websocket.RoundTrip
import Nbio.Websocket.SendQueue

/-!
# Which frames `WriteMessage` emits

`WriteMessage` has the lock of the connection while it cuts a payload into frames, so that nothing
comes between the frames of one call.  It stops at the first frame that is refused, and it cuts
control messages like any other.  `Legal` says what a peer may be sent, and `fits` which calls keep
to it.

An `Emitter` is a connection as `WriteMessage` sees it: of the send queue only the number of its
slots matters, which goes up by one with each frame that is queued and back to zero when the
goroutine of the queue has reached its end.
-/

namespace Nbio.Websocket

open Nbio.Go Nbio.Lib List

/-! ## Calls -/

/-- `sent` holds the frames that were written or queued. -/
structure Emitter where
  closed : Bool
  /-- `len(c.sendQueue)`. -/
  queued : Nat
  sent : Sent
deriving DecidableEq, Repr

def Emitter.init : Emitter := { closed := false, queued := 0, sent := { count := 0, frames := [] } }

/-- Whether frame `n` is refused in a call that begins in this state.  Without a queue no frame is,
and a size of zero is no limit. -/
def Emitter.refuses (sendQueueSize : Option Nat) (e : Emitter) (n : Nat) : Option Err :=
  match sendQueueSize with
  | none => none
  | some size =>
    if 0 < size ∧ size ≤ e.queued + (n - e.sent.count) then some .messageSendQuqueIsFull else none

def Emitter.sender (p : Sender) (sendQueueSize : Option Nat) (e : Emitter) : Sender :=
  { p with closed := e.closed, refuses := e.refuses sendQueueSize }

def Emitter.WriteMessage (p : Sender) (sendQueueSize : Option Nat) (e : Emitter)
    (messageType : MessageType) (data : Bytes) : Option Err × Emitter :=
  let (err, sent) := writeMessage (e.sender p sendQueueSize) e.sent messageType data
  (err, { e with
          queued := e.queued + (sent.frames.length - e.sent.frames.length)
          sent := sent })

inductive EmitterEvent where
  | writeMessage (messageType : MessageType) (data : Bytes)
  | drained
  | closeAndClean
deriving DecidableEq, Repr

def Emitter.step (p : Sender) (sendQueueSize : Option Nat) (e : Emitter) : EmitterEvent → Emitter
  | .writeMessage messageType data => (e.WriteMessage p sendQueueSize messageType data).2
  | .drained => { e with queued := 0 }
  | .closeAndClean => { e with closed := true }

/-! ## Legal sequences of frames -/

def opcodeOf (frame : Bytes) : MessageType := frame.headD 0 &&& 0xF

def finOf (frame : Bytes) : Bool := frame.headD 0 &&& 0x80 != 0

/-- Whether a data message is in progress behind a frame; `none` if the frame may not come. -/
def progress (inMessage : Bool) (frame : Bytes) : Option Bool :=
  if isControl (opcodeOf frame) then if finOf frame then some inMessage else none
  else if opcodeOf frame = fragmentMessage then if inMessage then some (!finOf frame) else none
  else if opcodeOf frame = textMessage ∨ opcodeOf frame = binaryMessage then
    if inMessage then none else some (!finOf frame)
  else none

/-- Control frames are single frames, and every data message is completed by continuation frames
before another one starts. -/
def Legal (frames : List Bytes) : Prop := frames.foldlM progress false = some false

instance (frames : List Bytes) : Decidable (Legal frames) := inferInstanceAs (Decidable (_ = _))

/-! ## Calls that keep to it -/

def frameCount (max len : Nat) : Nat := 1 + (len - 1) / max

def Emitter.hasRoom (sendQueueSize : Option Nat) (e : Emitter) (n : Nat) : Bool :=
  match sendQueueSize with
  | none => true
  | some size => size == 0 || e.queued + n ≤ size

/-- The call is turned away as a whole, or there is room for all its frames and a control message
needs one only. -/
def Emitter.fits (p : Sender) (sendQueueSize : Option Nat) (e : Emitter) : EmitterEvent → Bool
  | .writeMessage messageType data =>
    e.closed || (isControl messageType && maxControlFramePayloadSize < data.length) ||
      !e.hasRoom sendQueueSize 1 ||
      (e.hasRoom sendQueueSize
          (frameCount p.maxWebsocketFramePayloadSize (compressed p messageType data).2.length) &&
        (!isControl messageType || data.length ≤ p.maxWebsocketFramePayloadSize))
  | .drained | .closeAndClean => true

def Emitter.allFit (p : Sender) (sendQueueSize : Option Nat) :
    Emitter → List EmitterEvent → Bool
  | _, [] => true
  | e, event :: events =>
    e.fits p sendQueueSize event && (e.step p sendQueueSize event).allFit p sendQueueSize events

/-! ## The frames of one call -/

variable {p : Sender} {w : Sent} {t : MessageType} {data : Bytes} {compress : Bool}

theorem encodeFrame_head (ht : t.toNat < 16) (isClient : Bool) (u32 : UInt32)
    (sendOpcode fin : Bool) :
    opcodeOf (encodeFrame isClient u32 t sendOpcode fin data compress) =
      (if sendOpcode then t else 0) ∧
      finOf (encodeFrame isClient u32 t sendOpcode fin data compress) = fin := by
  have hop : (if sendOpcode then t else 0).toNat < 16 := by
    split
    · exact ht
    · decide
  obtain ⟨hopcode, hfin, -⟩ := firstByte_bits hop compress fin
  exact ⟨hopcode, hfin⟩

variable {x : Bytes}

theorem progress_continuation (h : opcodeOf x = 0) : progress true x = some (!finOf x) := by
  unfold progress
  rw [h]
  rfl

theorem progress_data (h : isTextOrBinary (opcodeOf x)) (inMessage : Bool) :
    progress inMessage x = if inMessage then none else some (!finOf x) := by
  unfold progress
  rcases h with h | h <;> rw [h] <;> rfl

theorem progress_control (h : isControl (opcodeOf x) = true) (inMessage : Bool) :
    progress inMessage x = if finOf x then some inMessage else none := by
  rw [progress, if_pos h]

theorem frameCount_of_le {max len : Nat} (h : len ≤ max) (hmax : 0 < max) :
    frameCount max len = 1 := by
  unfold frameCount
  rw [Nat.div_eq_of_lt (by omega)]

theorem frameCount_of_lt {max len : Nat} (h : max < len) (hmax : 0 < max) :
    frameCount max len = frameCount max (len - max) + 1 := by
  unfold frameCount
  have hsub : len - 1 = (len - max - 1) + max := by omega
  rw [hsub, Nat.add_div_right _ hmax]
  omega

/-- What refuses a frame refuses those behind it. -/
def Sender.Persists (p : Sender) : Prop := ∀ m n, m ≤ n → p.refuses n = none → p.refuses m = none

/-- The last frame of a payload in a call that has sent `w.count` frames. -/
def lastFrame (p : Sender) (w : Sent) (data : Bytes) : Nat :=
  w.count + (frameCount p.maxWebsocketFramePayloadSize data.length - 1)

theorem lastFrame_of_le (h : data.length ≤ p.maxWebsocketFramePayloadSize) :
    lastFrame p w data = w.count := by
  rw [lastFrame, frameCount_of_le h p.maxWebsocketFramePayloadSize_pos]
  rfl

theorem lastFrame_of_lt (h : p.maxWebsocketFramePayloadSize < data.length) (frames : List Bytes) :
    lastFrame p w data =
      lastFrame p ⟨w.count + 1, frames⟩ (data.drop p.maxWebsocketFramePayloadSize) := by
  have hone : 0 < frameCount p.maxWebsocketFramePayloadSize
      (data.length - p.maxWebsocketFramePayloadSize) := Nat.lt_add_right _ Nat.zero_lt_one
  unfold lastFrame
  rw [frameCount_of_lt h p.maxWebsocketFramePayloadSize_pos, length_drop]
  dsimp only
  omega

theorem writeFrame_cases (p : Sender) (w : Sent) (t : MessageType) (sendOpcode fin : Bool)
    (data : Bytes) (compress : Bool) :
    (∃ err, p.refuses w.count = some err ∧ writeFrame p w t sendOpcode fin data compress =
        (some err, { w with count := w.count + 1 })) ∨
      (p.refuses w.count = none ∧ writeFrame p w t sendOpcode fin data compress = (none,
        { count := w.count + 1
          frames := w.frames ++
            [encodeFrame p.isClient (p.rand w.count) t sendOpcode fin data compress] })) := by
  unfold writeFrame
  cases p.refuses w.count with
  | none => exact .inr ⟨rfl, rfl⟩
  | some err => exact .inl ⟨err, rfl, rfl⟩

theorem writeFrames_of_le {fuel : Nat} {sendOpcode : Bool} (hdata : data ≠ [])
    (h : data.length ≤ p.maxWebsocketFramePayloadSize) :
    writeFrames p (writeFrame p) t (fuel + 1) w sendOpcode compress data =
      writeFrame p w t sendOpcode true data compress := by
  unfold writeFrames
  rw [if_neg hdata, if_neg (Nat.not_lt.2 h)]
  dsimp only
  rw [beq_self_eq_true, take_length, drop_length]
  rcases writeFrame_cases p w t sendOpcode true data compress with ⟨err, -, heq⟩ | ⟨-, heq⟩
  · rw [heq]
  · rw [heq]
    exact writeFrames_nil fuel

theorem writeFrames_of_lt (fuel : Nat) (sendOpcode compress : Bool)
    (h : p.maxWebsocketFramePayloadSize < data.length) :
    (∃ err, p.refuses w.count = some err ∧
      writeFrames p (writeFrame p) t (fuel + 1) w sendOpcode compress data =
        (some err, { w with count := w.count + 1 })) ∨
      (p.refuses w.count = none ∧
        writeFrames p (writeFrame p) t (fuel + 1) w sendOpcode compress data =
        writeFrames p (writeFrame p) t fuel
          { count := w.count + 1
            frames := w.frames ++ [encodeFrame p.isClient (p.rand w.count) t sendOpcode false
              (data.take p.maxWebsocketFramePayloadSize) compress] }
          false false (data.drop p.maxWebsocketFramePayloadSize)) := by
  have hdata : data ≠ [] := ne_nil_of_length_pos (by omega)
  rw [writeFrames, if_neg hdata, if_pos h]
  dsimp only
  rw [beq_false_of_ne (Nat.ne_of_lt h)]
  rcases writeFrame_cases p w t sendOpcode false (data.take p.maxWebsocketFramePayloadSize) compress
    with ⟨err, hrefuses, heq⟩ | ⟨haccepts, heq⟩
  · exact .inl ⟨err, hrefuses, by rw [heq]⟩
  · exact .inr ⟨haccepts, by rw [heq]⟩

theorem writeFrames_continue (hp : p.Persists) (ht : t.toNat < 16) (fuel : Nat) (hdata : data ≠ [])
    (hfuel : data.length ≤ fuel) :
    ∃ rest, (writeFrames p (writeFrame p) t fuel w false false data).2.frames = w.frames ++ rest ∧
      rest.foldlM progress true = some (p.refuses (lastFrame p w data)).isSome ∧
      (p.refuses (lastFrame p w data) = none →
        (writeFrames p (writeFrame p) t fuel w false false data).1 = none) := by
  induction fuel generalizing w data with
  | zero => exact absurd (eq_nil_of_length_eq_zero (Nat.le_zero.1 hfuel)) hdata
  | succ fuel ih =>
    -- where the first frame is refused, so is the last
    have hrefused : ∀ err, p.refuses w.count = some err →
        ∃ err', p.refuses (lastFrame p w data) = some err' := by
      intro err hrefuses
      cases hlast : p.refuses (lastFrame p w data) with
      | some err' => exact ⟨err', rfl⟩
      | none =>
        rw [hp _ _ (Nat.le_add_right _ _) hlast] at hrefuses
        cases hrefuses
    rcases Nat.lt_or_ge p.maxWebsocketFramePayloadSize data.length with hlt | hle
    · rcases writeFrames_of_lt fuel false false hlt with
        ⟨err, hrefuses, heq⟩ | ⟨haccepts, heq⟩
      · obtain ⟨err', hlast⟩ := hrefused err hrefuses
        rw [heq, hlast]
        exact ⟨[], (append_nil _).symm, rfl, nofun⟩
      · rw [heq]
        have hpos := p.maxWebsocketFramePayloadSize_pos
        have hdrop : data.drop p.maxWebsocketFramePayloadSize ≠ [] :=
          fun hnil => Nat.not_le.2 hlt (drop_eq_nil_iff.1 hnil)
        obtain ⟨rest, hframes, hrest, herr⟩ := ih hdrop
          (by rw [length_drop]; omega)
        rw [← lastFrame_of_lt hlt] at hrest herr
        refine ⟨_ :: rest, by rw [hframes, append_assoc, singleton_append], ?_, herr⟩
        obtain ⟨hopcode, hfin⟩ := encodeFrame_head ht p.isClient (p.rand w.count) false false
        rw [foldlM_cons, progress_continuation hopcode, hfin]
        exact hrest
    · rw [writeFrames_of_le hdata hle, lastFrame_of_le hle]
      rcases writeFrame_cases p w t false true data false
        with ⟨err, hrefuses, heq⟩ | ⟨haccepts, heq⟩
      · rw [heq, hrefuses]
        exact ⟨[], (append_nil _).symm, rfl, nofun⟩
      · rw [heq, haccepts]
        refine ⟨_, rfl, ?_, fun _ => rfl⟩
        obtain ⟨hopcode, hfin⟩ := encodeFrame_head ht p.isClient (p.rand w.count) false true
        rw [foldlM_cons, progress_continuation hopcode, hfin]
        rfl

def writePayload (p : Sender) (w : Sent) (messageType : MessageType) (compress : Bool)
    (data : Bytes) : Option Err × Sent :=
  if data ≠ [] then writeFrames p (writeFrame p) messageType data.length w true compress data
  else writeFrame p w messageType true true [] compress

/-- The frames of a payload: none if the first one is refused, or a frame with the opcode and those
that continue it. -/
theorem payload_frames (hp : p.Persists) (ht : t.toNat < 16) (compress : Bool) (data : Bytes) :
    ∃ new, (writePayload p w t compress data).2.frames = w.frames ++ new ∧
      (p.refuses w.count ≠ none → new = []) ∧
      (p.refuses w.count = none → ∃ x rest, new = x :: rest ∧ opcodeOf x = t ∧
        finOf x = decide (data.length ≤ p.maxWebsocketFramePayloadSize) ∧
        (data.length ≤ p.maxWebsocketFramePayloadSize → rest = []) ∧
        (p.maxWebsocketFramePayloadSize < data.length →
          rest.foldlM progress true = some (p.refuses (lastFrame p w data)).isSome)) ∧
      (p.refuses (lastFrame p w data) = none → (writePayload p w t compress data).1 = none) := by
  rcases Nat.lt_or_ge p.maxWebsocketFramePayloadSize data.length with hlt | hle
  · have hdata : data ≠ [] := ne_nil_of_length_pos (by omega)
    obtain ⟨fuel, hfuel⟩ := Nat.exists_eq_add_of_lt (length_pos_iff.2 hdata)
    rw [Nat.zero_add] at hfuel
    rw [writePayload, if_pos hdata, hfuel]
    rcases writeFrames_of_lt fuel true compress hlt with
      ⟨err, hrefuses, heq⟩ | ⟨haccepts, heq⟩
    · rw [heq]
      refine ⟨[], (append_nil _).symm, fun _ => rfl, fun hnone => ?_, fun hlast => ?_⟩
      · rw [hnone] at hrefuses
        cases hrefuses
      · rw [hp _ _ (Nat.le_add_right _ _) hlast] at hrefuses
        cases hrefuses
    · rw [heq]
      have hpos := p.maxWebsocketFramePayloadSize_pos
      have hdrop : data.drop p.maxWebsocketFramePayloadSize ≠ [] :=
        fun hnil => Nat.not_le.2 hlt (drop_eq_nil_iff.1 hnil)
      obtain ⟨rest, hframes, hrest, herr⟩ := writeFrames_continue hp ht fuel
        hdrop (by rw [length_drop]; omega)
      rw [← lastFrame_of_lt hlt] at hrest herr
      refine ⟨_ :: rest, by rw [hframes, append_assoc, singleton_append],
        fun hne => absurd haccepts hne, fun _ => ⟨_, rest, rfl, ?_⟩, herr⟩
      obtain ⟨hopcode, hfin⟩ := encodeFrame_head ht p.isClient (p.rand w.count) true false
      rw [← hfuel]
      exact ⟨hopcode, hfin.trans (decide_eq_false (Nat.not_le.2 hlt)).symm,
        fun hle => absurd hlt (Nat.not_lt.2 hle), fun _ => hrest⟩
  · have hsingle : writePayload p w t compress data = writeFrame p w t true true data compress := by
      unfold writePayload
      by_cases hdata : data = []
      · rw [if_neg (not_not_intro hdata), hdata]
      · obtain ⟨fuel, hfuel⟩ := Nat.exists_eq_add_of_lt (length_pos_iff.2 hdata)
        rw [if_pos hdata, hfuel, writeFrames_of_le hdata hle]
    rw [hsingle, lastFrame_of_le hle]
    rcases writeFrame_cases p w t true true data compress
      with ⟨err, hrefuses, heq⟩ | ⟨haccepts, heq⟩
    · rw [heq, hrefuses]
      exact ⟨[], (append_nil _).symm, fun _ => rfl, nofun, nofun⟩
    · rw [heq, haccepts]
      obtain ⟨hopcode, hfin⟩ := encodeFrame_head ht p.isClient (p.rand w.count) true true
      exact ⟨_, rfl, fun hne => absurd rfl hne, fun _ => ⟨_, [], rfl, hopcode,
        hfin.trans (decide_eq_true hle).symm, fun _ => rfl,
          fun hlt => absurd hlt (Nat.not_lt.2 hle)⟩, fun _ => rfl⟩

/-- The first frame is refused, or the last one is not and stands for itself in a control
message. -/
def Completes (p : Sender) (w : Sent) (t : MessageType) (data : Bytes) : Prop :=
  p.refuses w.count ≠ none ∨ (p.refuses (lastFrame p w data) = none ∧
    (isControl t = true → data.length ≤ p.maxWebsocketFramePayloadSize))

theorem isControl_of_textOrBinary (h : isTextOrBinary t) : isControl t = false := by
  rcases h with rfl | rfl <;> rfl

theorem first_progress {rest : List Bytes} {last : Bool}
    (ht : isTextOrBinary (opcodeOf x) ∨ isControl (opcodeOf x) = true)
    (hsingle : finOf x = true → rest = [])
    (hrest : finOf x = false → rest.foldlM progress true = some last) :
    ((x :: rest).foldlM progress false = some false ↔
        finOf x = true ∨ (isControl (opcodeOf x) = false ∧ last = false)) ∧
      (x :: rest).foldlM progress true ≠ some false := by
  rw [foldlM_cons, foldlM_cons]
  rcases ht with ht | ht
  · rw [progress_data ht, progress_data ht, isControl_of_textOrBinary ht]
    cases hfin : finOf x with
    | true =>
      rw [hsingle hfin]
      exact ⟨iff_of_true rfl (.inl rfl), nofun⟩
    | false =>
      refine ⟨?_, nofun⟩
      have hfold :
          ((if false = true then none else some (!false)) >>= fun m => rest.foldlM progress m) =
          some last := hrest hfin
      rw [hfold]
      simp
  · rw [progress_control ht, progress_control ht, ht]
    cases hfin : finOf x with
    | true =>
      rw [hsingle hfin]
      exact ⟨iff_of_true rfl (.inl rfl), nofun⟩
    | false => exact ⟨iff_of_false nofun (by simp), nofun⟩

/-- A call completes what it starts if its frames fit, adds no frame then if it fails, and completes
nothing that was started before it. -/
theorem writePayload_progress (hp : p.Persists) (ht : isTextOrBinary t ∨ isControl t = true)
    (compress : Bool)
    (data : Bytes) :
    ∃ new, (writePayload p w t compress data).2.frames = w.frames ++ new ∧
      (new.foldlM progress false = some false ↔ Completes p w t data) ∧
      new.foldlM progress true ≠ some false ∧
      (Completes p w t data → (writePayload p w t compress data).1 ≠ none → new = []) := by
  have ht16 : t.toNat < 16 := by
    rcases ht with (rfl | rfl) | ht
    · decide
    · decide
    · rcases isControl_cases ht with rfl | rfl | rfl <;> decide
  obtain ⟨new, hframes, hrefused, haccepted, herr⟩ := payload_frames hp ht16 compress data
  refine ⟨new, hframes, ?_⟩
  cases hfirst : p.refuses w.count with
  | some err =>
    obtain rfl := hrefused (by rw [hfirst]; nofun)
    exact ⟨iff_of_true rfl (.inl (by rw [hfirst]; nofun)), nofun, fun _ _ => rfl⟩
  | none =>
    obtain ⟨x, rest, rfl, rfl, hfin, hshort, hlong⟩ := haccepted hfirst
    have hcompletes : Completes p w (opcodeOf x) data ↔ p.refuses (lastFrame p w data) = none ∧
        (isControl (opcodeOf x) = true → data.length ≤ p.maxWebsocketFramePayloadSize) :=
      ⟨fun h => h.resolve_left (fun hne => hne hfirst), .inr⟩
    have hrest : finOf x = false →
        rest.foldlM progress true = some (p.refuses (lastFrame p w data)).isSome :=
      fun h => hlong (Nat.lt_of_not_le (of_decide_eq_false (hfin ▸ h)))
    obtain ⟨hlegal, hstuck⟩ :=
      first_progress ht (fun h => hshort (of_decide_eq_true (hfin ▸ h))) hrest
    refine ⟨?_, hstuck, fun h hne => absurd (herr (hcompletes.1 h).1) hne⟩
    rw [hlegal, hcompletes, hfin, decide_eq_true_eq, Option.isSome_eq_false_iff,
      Option.isNone_iff_eq_none]
    constructor
    · rintro (hle | ⟨hdata, hlast⟩)
      · exact ⟨lastFrame_of_le hle ▸ hfirst, fun _ => hle⟩
      · exact ⟨hlast, fun hcontrol => absurd hcontrol (by rw [hdata]; exact Bool.false_ne_true)⟩
    · rintro ⟨hlast, hcontrol⟩
      cases hop : isControl (opcodeOf x) with
      | true => exact .inl (hcontrol hop)
      | false => exact .inr ⟨rfl, hlast⟩

/-! ## Whole runs -/

section Runs

variable {sendQueueSize : Option Nat} {e : Emitter}

theorem sender_persists (p : Sender) (sendQueueSize : Option Nat) (e : Emitter) :
    (e.sender p sendQueueSize).Persists := by
  intro m n hle hnone
  cases sendQueueSize with
  | none => rfl
  | some size =>
    simp only [Emitter.sender, Emitter.refuses, ite_eq_right_iff, reduceCtorEq, imp_false]
      at hnone ⊢
    omega

theorem refuses_eq_none_iff (e : Emitter) (sendQueueSize : Option Nat) (n : Nat) :
    e.refuses sendQueueSize (e.sent.count + n) = none ↔ e.hasRoom sendQueueSize (n + 1) = true := by
  cases sendQueueSize with
  | none => exact iff_of_true rfl rfl
  | some size =>
    simp only [Emitter.refuses, Emitter.hasRoom, ite_eq_right_iff, reduceCtorEq, imp_false,
      Bool.or_eq_true, beq_iff_eq, decide_eq_true_eq]
    omega

theorem compressed_control (ht : isControl t = true) : compressed p t data = (false, data) := by
  have hplain : (t == textMessage || t == binaryMessage) = false := by
    rcases isControl_cases ht with rfl | rfl | rfl <;> rfl
  rw [compressed, hplain, Bool.and_false]
  exact if_neg Bool.false_ne_true

theorem completes_iff (hopen : e.closed = false)
    (hsize : (isControl t && maxControlFramePayloadSize < data.length) = false) :
    Completes (e.sender p sendQueueSize) e.sent t (compressed p t data).2 ↔
      e.fits p sendQueueSize (.writeMessage t data) = true := by
  have hfirst := refuses_eq_none_iff e sendQueueSize 0
  have hlast := refuses_eq_none_iff e sendQueueSize
    (frameCount p.maxWebsocketFramePayloadSize (compressed p t data).2.length - 1)
  have hone : frameCount p.maxWebsocketFramePayloadSize (compressed p t data).2.length - 1 + 1 =
      frameCount p.maxWebsocketFramePayloadSize (compressed p t data).2.length :=
    Nat.sub_add_cancel (Nat.le_add_right _ _)
  have hcontrol : (isControl t = true →
      (compressed p t data).2.length ≤ p.maxWebsocketFramePayloadSize) ↔
      (!isControl t || decide (data.length ≤ p.maxWebsocketFramePayloadSize)) = true := by
    cases hc : isControl t with
    | false => exact iff_of_true nofun rfl
    | true => rw [compressed_control hc]; simp
  rw [hone] at hlast
  rw [Emitter.fits, hopen, hsize, Bool.false_or, Bool.false_or, Bool.or_eq_true,
    Bool.and_eq_true, Bool.not_eq_true', ← hcontrol, ← hlast, ← Bool.not_eq_true, ← hfirst]
  rfl

theorem WriteMessage_progress (p : Sender) (sendQueueSize : Option Nat) (e : Emitter)
    (ht : isTextOrBinary t ∨ isControl t = true) (data : Bytes) :
    ∃ new, (e.WriteMessage p sendQueueSize t data).2.sent.frames = e.sent.frames ++ new ∧
      (new.foldlM progress false = some false ↔
        e.fits p sendQueueSize (.writeMessage t data) = true) ∧
      new.foldlM progress true ≠ some false ∧
      (e.fits p sendQueueSize (.writeMessage t data) = true →
        (e.WriteMessage p sendQueueSize t data).1 ≠ none → new = []) := by
  cases hclosed : e.closed with
  | true =>
    have hsame : (e.WriteMessage p sendQueueSize t data).2.sent = e.sent := by
      simp [Emitter.WriteMessage, writeMessage, writeMessageBy, Emitter.sender, hclosed]
    have hfits : e.fits p sendQueueSize (.writeMessage t data) = true := by
      simp [Emitter.fits, hclosed]
    exact ⟨[], by rw [hsame, append_nil], iff_of_true rfl hfits, nofun, fun _ _ => rfl⟩
  | false =>
    cases hsize : (isControl t && maxControlFramePayloadSize < data.length) with
    | true =>
      have hsame : (e.WriteMessage p sendQueueSize t data).2.sent = e.sent := by
        simp only [Emitter.WriteMessage, writeMessage, writeMessageBy, Emitter.sender,
          hclosed, hsize]
        rfl
      have hfits : e.fits p sendQueueSize (.writeMessage t data) = true := by
        simp only [Emitter.fits, hsize, Bool.or_true, Bool.true_or]
      exact ⟨[], by rw [hsame, append_nil], iff_of_true rfl hfits, nofun, fun _ _ => rfl⟩
    | false =>
      have hpayload : writeMessage (e.sender p sendQueueSize) e.sent t data =
          writePayload (e.sender p sendQueueSize) e.sent t (compressed p t data).1
            (compressed p t data).2 := by
        rw [writeMessage, writeMessageBy, hsize]
        simp only [Emitter.sender, hclosed]
        rfl
      obtain ⟨new, hframes, hlegal, hstuck, herr⟩ := writePayload_progress
        (sender_persists p sendQueueSize e) ht (compressed p t data).1
        (compressed p t data).2
      rw [completes_iff hclosed hsize] at hlegal herr
      rw [← hpayload] at hframes herr
      exact ⟨new, hframes, hlegal, hstuck, herr⟩

/-- A legal sequence stays legal if and only if the event fits, and one that is not legal never is
again. -/
theorem step_legal {event : EmitterEvent}
    (ht : ∀ t data, event = .writeMessage t data → isTextOrBinary t ∨ isControl t = true) :
    Legal (e.step p sendQueueSize event).sent.frames ↔
      Legal e.sent.frames ∧ e.fits p sendQueueSize event = true := by
  cases event with
  | drained => exact (and_iff_left rfl).symm
  | closeAndClean => exact (and_iff_left rfl).symm
  | writeMessage t data =>
    obtain ⟨new, hframes, hlegal, hstuck, -⟩ :=
      WriteMessage_progress p sendQueueSize e (ht t data rfl) data
    rw [Legal, Emitter.step, hframes, foldlM_append, ← hlegal, Legal]
    cases e.sent.frames.foldlM progress false with
    | none => exact iff_of_false nofun nofun
    | some inMessage =>
      cases inMessage with
      | true => exact iff_of_false hstuck nofun
      | false => exact (and_iff_right rfl).symm

theorem run_legal {events : List EmitterEvent}
    (ht : ∀ t data, .writeMessage t data ∈ events → isTextOrBinary t ∨ isControl t = true) :
    Legal (events.foldl (Emitter.step p sendQueueSize) e).sent.frames ↔
      Legal e.sent.frames ∧ e.allFit p sendQueueSize events = true := by
  induction events generalizing e with
  | nil => exact (and_iff_left rfl).symm
  | cons event events ih =>
    rw [foldl_cons, ih fun t data hmem => ht t data (mem_cons_of_mem _ hmem),
      step_legal fun t data heq => ht t data (heq ▸ mem_cons_self), Emitter.allFit,
      Bool.and_eq_true, and_assoc]

end Runs

/-! ## The queue below

`queueMessage` is `WriteMessage` on a connection with a send queue.  The frames of an `Emitter` are
those that such a connection has queued: a call of the one is a call of the other, and of the
goroutine's steps only the one that cuts the queue back can be seen. -/

open SendQueue (State Buffer Ordered Accounted)

section Queue

variable {size : Nat} {e : Emitter} {s : State}

def queueFrame (p : Sender) (size : Nat) (s : State) (messageType : MessageType)
    (sendOpcode fin : Bool) (data : Bytes) (compress : Bool) : Option Err × State :=
  SendQueue.writeFrame size s
    (encodeFrame p.isClient (p.rand s.mallocs) messageType sendOpcode fin data compress)

def queueMessage (p : Sender) (size : Nat) (s : State) (messageType : MessageType)
    (data : Bytes) : Option Err × State :=
  writeMessageBy p (queueFrame p size) messageType s.closed s data

/-- The queue holds what has been sent in a call that began in state `e`. -/
structure Emitter.Queued (e : Emitter) (w : Sent) (s : State) : Prop where
  closed : s.closed = e.closed
  count : s.mallocs = w.count
  frames : s.enqueued.map Buffer.frame = w.frames
  slots : s.sendQueue.length + e.sent.frames.length = e.queued + w.frames.length
  longer : e.sent.frames.length ≤ w.frames.length

def Emitter.Mirrors (e : Emitter) (s : State) : Prop := e.Queued e.sent s

/-- No frame has been refused since the call began. -/
def Emitter.Unrefused (e : Emitter) (w : Sent) : Prop :=
  w.count + e.sent.frames.length = e.sent.count + w.frames.length ∧ e.sent.count ≤ w.count

/-- Runs of `writeFrame` alone. -/
abbrev Queues (size : Nat) : State → State → Prop :=
  Reaches (SendQueue.step size) fun _ event => ∃ frame, event = .writeFrame frame

/-- What a call does to the frames that were sent, and to the queue. -/
structure Emitter.Matches (e : Emitter) (size : Nat) (s : State) (r : Option Err × Sent)
    (r' : Option Err × State) : Prop where
  err : r'.1 = r.1
  run : Queues size s r'.2
  queued : e.Queued r.2 r'.2
  unrefused : r.1 = none → e.Unrefused r.2

theorem writeFrame_queues (p : Sender) (size : Nat) (t : MessageType) (sendOpcode fin : Bool)
    (data : Bytes) (compress : Bool) (h : e.Queued w s) (hcount : e.Unrefused w)
    (hopen : e.closed = false) :
    e.Matches size s (writeFrame (e.sender p (some size)) w t sendOpcode fin data compress)
      (queueFrame p size s t sendOpcode fin data compress) := by
  obtain ⟨hclosed, hmallocs, hframes, hslots, hlonger⟩ := h
  obtain ⟨hsum, hle⟩ := hcount
  have hfull : (e.sender p (some size)).refuses w.count =
      if 0 < size ∧ size ≤ s.sendQueue.length then some .messageSendQuqueIsFull else none := by
    have hlength : e.queued + (w.count - e.sent.count) = s.sendQueue.length := by omega
    simp only [Emitter.sender, Emitter.refuses, hlength]
  have hrun : ∀ frame, Queues size s (SendQueue.writeFrame size s frame).2 := fun frame =>
    .next .refl ⟨frame, rfl⟩ (by simp [SendQueue.step, SendQueue.WriteFrame, hclosed, hopen])
  replace hrun : Queues size s (queueFrame p size s t sendOpcode fin data compress).2 := hrun _
  revert hrun
  unfold queueFrame SendQueue.writeFrame
  dsimp only
  rcases writeFrame_cases (e.sender p (some size)) w t sendOpcode fin data compress with
    ⟨err, hrefuses, heq⟩ | ⟨haccepts, heq⟩
  · rw [hfull, Option.ite_none_right_eq_some] at hrefuses
    obtain ⟨hcond, ⟨⟩⟩ := hrefuses
    rw [heq, if_pos hcond]
    exact fun hrun => ⟨rfl, hrun, ⟨hclosed, congrArg (· + 1) hmallocs, hframes, hslots, hlonger⟩,
      fun h => by cases h⟩
  · rw [hfull, ite_eq_right_iff] at haccepts
    rw [heq, if_neg fun hcond => Option.some_ne_none _ (haccepts hcond)]
    split <;>
      exact fun hrun => ⟨rfl, hrun, ⟨hclosed, congrArg (· + 1) hmallocs,
        by simp [hframes, hmallocs, Emitter.sender], by simp; omega, by simp; omega⟩, fun _ =>
        ⟨by simp; omega, Nat.le_succ_of_le hle⟩⟩

theorem writeFrames_queues {fuel : Nat} (sendOpcode compress : Bool) (data : Bytes)
    (h : e.Queued w s) (hcount : e.Unrefused w) (hopen : e.closed = false) :
    e.Matches size s (writeFrames (e.sender p (some size)) (writeFrame (e.sender p (some size))) t
      fuel w sendOpcode compress data)
      (writeFrames p (queueFrame p size) t fuel s sendOpcode compress data) := by
  induction fuel generalizing w s data sendOpcode compress with
  | zero => exact ⟨rfl, .refl, h, fun _ => hcount⟩
  | succ fuel ih =>
    unfold writeFrames
    split
    · exact ⟨rfl, .refl, h, fun _ => hcount⟩
    · have hmax : (e.sender p (some size)).maxWebsocketFramePayloadSize =
        p.maxWebsocketFramePayloadSize := rfl
      rw [hmax]
      dsimp only
      generalize (if p.maxWebsocketFramePayloadSize < data.length then
        p.maxWebsocketFramePayloadSize else data.length) = n
      obtain ⟨herr, hrun, hqueued, hnone⟩ := writeFrame_queues p size t sendOpcode
        (n == data.length) (data.take n) compress h hcount hopen
      generalize writeFrame (e.sender p (some size)) w t sendOpcode (n == data.length)
        (data.take n) compress = r at herr hqueued hnone
      generalize queueFrame p size s t sendOpcode (n == data.length) (data.take n) compress = r'
        at herr hrun hqueued
      obtain ⟨_, w'⟩ := r
      obtain ⟨err, s'⟩ := r'
      obtain rfl : err = _ := herr
      cases err with
      | some err => exact ⟨rfl, hrun, hqueued, hnone⟩
      | none =>
        obtain ⟨herr', hrun', hqueued', hnone'⟩ := ih false false (data.drop n) hqueued (hnone rfl)
        exact ⟨herr', hrun.trans hrun', hqueued', hnone'⟩

theorem WriteMessage_queues (p : Sender) (size : Nat) (t : MessageType) (data : Bytes)
    (h : e.Mirrors s) :
    Queues size s (queueMessage p size s t data).2 ∧
      (e.WriteMessage p (some size) t data).2.Mirrors (queueMessage p size s t data).2 := by
  have hmatches : e.Matches size s (writeMessage (e.sender p (some size)) e.sent t data)
      (queueMessage p size s t data) := by
    have hcount : e.Unrefused e.sent := ⟨rfl, Nat.le_refl _⟩
    unfold writeMessage queueMessage writeMessageBy
    rw [h.closed]
    refine (apply_ite₂ (e.Matches size s) (e.closed = true) _ _ _ _).mpr ?_
    split
    · exact ⟨rfl, .refl, h, fun h => by cases h⟩
    next hclosed =>
    have hopen : e.closed = false := Bool.eq_false_iff.2 hclosed
    refine (apply_ite₂ (e.Matches size s) _ _ _ _ _).mpr ?_
    split
    · exact ⟨rfl, .refl, h, fun h => by cases h⟩
    refine (apply_ite₂ (e.Matches size s) ((compressed p t data).2 ≠ []) _ _ _ _).mpr ?_
    split
    · exact writeFrames_queues _ _ _ h hcount hopen
    · exact writeFrame_queues p size t true true [] _ h hcount hopen
  obtain ⟨-, hrun, ⟨hclosed, hmallocs, hframes, hslots, hlonger⟩, -⟩ := hmatches
  refine ⟨hrun, hclosed, hmallocs, hframes, ?_, Nat.le_refl _⟩
  dsimp only [Emitter.WriteMessage]
  omega

/-- A step of the queue that is no call of `writeFrame`, or a call of `WriteMessage`. -/
abbrev Turn := SendQueue.Event ⊕ MessageType × Bytes

def turn (p : Sender) (size : Nat) (s : State) : Turn → Option State
  | .inr (messageType, data) => some (queueMessage p size s messageType data).2
  | .inl (.writeFrame _) => none
  | .inl event => SendQueue.step size s event

def EmitterEvent.call : EmitterEvent → Option (MessageType × Bytes)
  | .writeMessage messageType data => some (messageType, data)
  | .drained | .closeAndClean => none

/-- The steps of the goroutine and `CloseAndClean` are events of the `Emitter`, or cannot be
seen. -/
theorem step_mirrored {u : State} {event : SendQueue.Event} (h : e.Mirrors s)
    (hturn : turn p size s (.inl event) = some u) :
    e.Mirrors u ∨ (e.step p (some size) .drained).Mirrors u ∨
      (e.step p (some size) .closeAndClean).Mirrors u := by
  obtain ⟨hclosed, hmallocs, hframes, hslots, hlonger⟩ := h
  cases event with
  | writeFrame frame => cases hturn
  | closeAndClean =>
    cases hturn
    refine .inr (.inr ?_)
    unfold SendQueue.CloseAndClean
    split
    · next hc => exact ⟨hc, hmallocs, hframes, hslots, hlonger⟩
    · exact ⟨rfl, hmallocs, hframes, by rw [length_map]; exact hslots, hlonger⟩
  | writer n =>
    obtain ⟨w, -, rfl⟩ := Option.map_eq_some_iff.1 hturn
    cases w.phase with
    | writing => exact .inl ⟨hclosed, hmallocs, hframes, hslots, hlonger⟩
    | freeing => exact .inl ⟨hclosed, hmallocs, hframes, hslots, hlonger⟩
    | locking =>
      dsimp only [SendQueue.next]
      split
      · exact .inl ⟨hclosed, hmallocs, hframes, hslots, hlonger⟩
      · split
        · exact .inr (.inl ⟨hclosed, hmallocs, hframes, rfl, hlonger⟩)
        · have hset : (s.sendQueue.set (w.i + 1) none).length + e.sent.frames.length =
              e.queued + e.sent.frames.length := by
            rw [length_set]
            exact hslots
          split
          · exact .inl ⟨hclosed, hmallocs, hframes, hset, hlonger⟩
          · exact .inl ⟨hclosed, hmallocs, hframes, hset, hlonger⟩

theorem turn_mirrored {u : State} {a : Turn} (h : e.Mirrors s)
    (hinv : Ordered s ∧ Accounted s) (hturn : turn p size s a = some u) :
    (Ordered u ∧ Accounted u) ∧ ∃ events : List EmitterEvent,
      events.filterMap EmitterEvent.call = a.getRight?.toList ∧
        (events.foldl (Emitter.step p (some size)) e).Mirrors u := by
  cases a with
  | inr call =>
    obtain ⟨t, data⟩ := call
    cases hturn
    obtain ⟨hrun, hmirrors⟩ := WriteMessage_queues p size t data h
    exact ⟨hrun.invariant hinv fun _ _ _ h _ => SendQueue.step_inv h,
      [.writeMessage t data], rfl, hmirrors⟩
  | inl event =>
    have hstep : SendQueue.step size s event = some u := by
      cases event with
      | writeFrame frame => cases hturn
      | closeAndClean => exact hturn
      | writer n => exact hturn
    refine ⟨SendQueue.step_inv hinv hstep, ?_⟩
    rcases step_mirrored h hturn with h | h | h
    · exact ⟨[], rfl, h⟩
    · exact ⟨[.drained], rfl, h⟩
    · exact ⟨[.closeAndClean], rfl, h⟩

theorem turns_mirrored {u : State} {turns : List Turn} (h : e.Mirrors s)
    (hinv : Ordered s ∧ Accounted s) (hrun : turns.foldlM (turn p size) s = some u) :
    Ordered u ∧ ∃ events : List EmitterEvent,
      events.filterMap EmitterEvent.call = turns.filterMap Sum.getRight? ∧
        (events.foldl (Emitter.step p (some size)) e).Mirrors u := by
  induction turns generalizing e s with
  | nil =>
    cases hrun
    exact ⟨hinv.1, [], rfl, h⟩
  | cons a turns ih =>
    obtain ⟨v, hv, hrun⟩ := Option.bind_eq_some_iff.1 hrun
    obtain ⟨hinv, first, hfirst, h⟩ := turn_mirrored h hinv hv
    obtain ⟨hordered, rest, hrest, h⟩ := ih h hinv hrun
    refine ⟨hordered, first ++ rest, ?_, ?_⟩
    · rw [filterMap_append, hfirst, hrest, filterMap_cons]
      cases a.getRight? <;> rfl
    · rw [foldl_append]
      exact h

end Queue

/-- The frames that a run of calls emits are legal if and only if each call that is not turned away
as a whole finds room for all its frames, and cuts no control message into more than one.  A call
that fits and fails adds no frame. -/
theorem emits_legal_frames_iff (p : Sender) (sendQueueSize : Option Nat)
    (events : List EmitterEvent)
    (ht : ∀ t data, .writeMessage t data ∈ events → isTextOrBinary t ∨ isControl t = true) :
    (Legal (events.foldl (Emitter.step p sendQueueSize) .init).sent.frames ↔
        Emitter.init.allFit p sendQueueSize events = true) ∧
      ∀ (e : Emitter) t data, isTextOrBinary t ∨ isControl t = true →
        e.fits p sendQueueSize (.writeMessage t data) = true →
        (e.WriteMessage p sendQueueSize t data).1 ≠ none →
        (e.WriteMessage p sendQueueSize t data).2.sent.frames = e.sent.frames := by
  refine ⟨(run_legal ht).trans (and_iff_right rfl), fun e t data ht hfits hne => ?_⟩
  obtain ⟨new, hframes, -, -, herr⟩ := WriteMessage_progress p sendQueueSize e ht data
  rw [hframes, herr hfits hne, append_nil]

def plainServer (max : Nat) (hmax : 0 < max) : Sender :=
  { closed := false, isClient := false, enableWriteCompression := false
    maxWebsocketFramePayloadSize := max, rand := fun _ => 0, deflate := fun _ => none
    refuses := fun _ => none, maxWebsocketFramePayloadSize_pos := hmax }

/-- A queue of three frames is filled by two messages, refuses a third one and takes a close message
behind that. -/
def fittingCalls : List EmitterEvent :=
  [.writeMessage textMessage [97, 98, 99], .writeMessage pingMessage [1],
    .writeMessage binaryMessage [2], .drained, .writeMessage closeMessage [3, 232]]

theorem emits_legal_frames_iff_queued :
    let e := fittingCalls.foldl (Emitter.step (plainServer 2 (by decide)) (some 3)) .init
    e.sent.frames = [[0x01, 2, 97, 98], [0x80, 1, 99], [0x89, 1, 1], [0x88, 2, 3, 232]] ∧
      Legal e.sent.frames :=
  ⟨by decide, ((emits_legal_frames_iff (plainServer 2 (by decide)) (some 3) fittingCalls
    (by simp [fittingCalls, isTextOrBinary, isControl]; tauto)).1.2 (by decide))⟩

/-- With one byte in a frame a ping message is sent as a control frame without the FIN bit and a
continuation frame.  With one frame in the queue the second frame of a message is refused, and
behind it the next message starts inside the one that was left incomplete. -/
theorem illegal_frames_are_emitted :
    let ping := Emitter.init.WriteMessage (plainServer 1 (by decide)) none pingMessage [1, 2]
    let cut := Emitter.init.WriteMessage (plainServer 1 (by decide)) (some 1) textMessage [97, 98]
    let drained := cut.2.step (plainServer 1 (by decide)) (some 1) .drained
    let next := drained.WriteMessage (plainServer 1 (by decide)) (some 1) textMessage [99]
    (ping.1 = none ∧ ping.2.sent.frames = [[0x09, 1, 1], [0x80, 1, 2]] ∧
        ¬ Legal ping.2.sent.frames) ∧
      (cut.1 = some .messageSendQuqueIsFull ∧ cut.2.sent.frames = [[0x01, 1, 97]] ∧ next.1 = none ∧
        next.2.sent.frames = [[0x01, 1, 97], [0x81, 1, 99]] ∧ ¬ Legal next.2.sent.frames) := by
  decide

/-- These calls, one after the other, emit what is queued in `s` and what is on the connection; and
all of it is there when the queue of an open connection is empty. -/
def Emitted (p : Sender) (size : Nat) (calls : List (MessageType × Bytes)) (s : State) : Prop :=
  ∃ events : List EmitterEvent, events.filterMap EmitterEvent.call = calls ∧
    let e := events.foldl (Emitter.step p (some size)) .init
    e.Mirrors s ∧ s.written.map Buffer.frame <+: e.sent.frames ∧
      (s.sendQueue = [] → s.closed = false → s.written.map Buffer.frame = e.sent.frames)

/-- However calls of `WriteMessage`, the goroutine and `CloseAndClean` take turns, the calls pass
the queue in their order. -/
theorem messages_pass_the_queue (p : Sender) (size : Nat) (turns : List Turn) (s : State)
    (h : turns.foldlM (turn p size) SendQueue.init = some s) :
    Emitted p size (turns.filterMap Sum.getRight?) s := by
  have hinit : Emitter.init.Mirrors SendQueue.init := ⟨rfl, rfl, rfl, rfl, Nat.le_refl _⟩
  obtain ⟨hordered, events, hcalls, h⟩ :=
    turns_mirrored hinit ⟨SendQueue.init_ordered, SendQueue.init_accounted⟩ h
  refine ⟨events, hcalls, h, ?_, fun hqueue hopen => ?_⟩
  · exact h.frames ▸ hordered.inOrder.map _
  · cases hordered with
    | idle _ _ hwritten => rw [hwritten, h.frames]
    | busy done batch w _ _ _ _ hbusy _ => simp [hqueue] at hbusy
    | ended hclosed _ _ => simp [hopen] at hclosed

/-- The second message comes while the goroutine writes the first one; its last frame is refused. -/
def crossingTurns : List Turn :=
  [.inr (textMessage, [97, 98, 99]), .inl (.writer 0), .inr (binaryMessage, [1, 2, 3]),
    .inl (.writer 0), .inl (.writer 0), .inl (.writer 0)]

theorem messages_pass_the_queue_crossing :
    ∃ s, crossingTurns.foldlM (turn (plainServer 2 (by decide)) 3) SendQueue.init = some s ∧
      s.written.map Buffer.frame = [[0x01, 2, 97, 98], [0x80, 1, 99]] ∧
      Emitted (plainServer 2 (by decide)) 3 (crossingTurns.filterMap Sum.getRight?) s := by
  obtain ⟨s, hs, hwritten⟩ := ends_of_any
    (o := crossingTurns.foldlM (turn (plainServer 2 (by decide)) 3) SendQueue.init)
    (p := fun s => s.written.map Buffer.frame = [[0x01, 2, 97, 98], [0x80, 1, 99]]) (by decide)
  exact ⟨s, hs, hwritten, messages_pass_the_queue _ _ crossingTurns s hs⟩

end Nbio.Websocket
