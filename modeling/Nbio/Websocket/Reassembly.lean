import Nbio.Websocket.RoundTrip

/-!
# Messages are put together from their frames

A sequence of frames that a peer may send carries a sequence of messages: the data messages, each
with the type of its first frame and the payloads of all its frames, and the control messages, in
the order of their last frames (`messagesOf`).  `Parse` delivers them but for two cases.  A data
message without any payload is dropped, since there is then no buffer to deliver; and a control
frame counts together with the message it interrupts against `MessageLengthLimit`.
-/

namespace Nbio.Websocket

open Nbio.Go Nbio.Lib List

/-! ## Frames and the messages they carry -/

/-- A frame without extension bits, and how it is masked. -/
structure WireFrame where
  opcode : MessageType
  fin : Bool
  payload : Bytes
  masked : Bool
  key : UInt32
deriving DecidableEq, Repr

def WireFrame.encode (f : WireFrame) : Bytes :=
  encodeFrame f.masked f.key f.opcode true f.fin f.payload false

/-- The data message of which some frames have been seen: its type and payload so far. -/
abbrev Held := Option (MessageType × Bytes)

def Held.payload (cur : Held) : Bytes := (cur.map Prod.snd).getD []

def Held.add (cur : Held) (f : WireFrame) : MessageType × Bytes :=
  match cur with
  | none => (f.opcode, f.payload)
  | some (t, m) => (t, m ++ f.payload)

def Held.after (cur : Held) (f : WireFrame) : Held :=
  if f.fin then none else some (cur.add f)

/-- A sequence of frames that may follow where a message is in progress or not.  A close frame is
the last one. -/
def legal : Bool → List WireFrame → Bool
  | _, [] => true
  | inMessage, f :: fs =>
    if isControl f.opcode then
      f.fin && f.payload.length ≤ maxControlFramePayloadSize &&
        (f.opcode != closeMessage || fs.isEmpty) && legal inMessage fs
    else
      (if inMessage then f.opcode == fragmentMessage
        else f.opcode == textMessage || f.opcode == binaryMessage) && legal (!f.fin) fs

def messagesOf : Held → List WireFrame → List (MessageType × Bytes)
  | _, [] => []
  | cur, f :: fs =>
    if isControl f.opcode then (f.opcode, f.payload) :: messagesOf cur fs
    else (if f.fin then [cur.add f] else []) ++ messagesOf (cur.after f) fs

/-- The lengths of the data messages, of which the last may not be complete. -/
def totals : Held → List WireFrame → List Nat
  | cur, [] => (cur.map (·.2.length)).toList
  | cur, f :: fs =>
    if isControl f.opcode then totals cur fs
    else (if f.fin then [(cur.add f).2.length] else []) ++ totals (cur.after f) fs

/-- A message is within the limit, and its length is an `int`, also with the head of a frame and a
control frame. -/
def Within (o : Options) (n : Nat) : Prop :=
  n + 14 + maxControlFramePayloadSize < 2 ^ 63 ∧
    (0 < o.messageLengthLimit → (n : Int) ≤ o.messageLengthLimit)

instance (o : Options) (n : Nat) : Decidable (Within o n) := inferInstanceAs (Decidable (_ ∧ _))

/-- Every control frame is within the limit together with the message it interrupts. -/
def controlsFit (o : Options) : Held → List WireFrame → Bool
  | _, [] => true
  | cur, f :: fs =>
    if isControl f.opcode then
      !isMessageTooLarge o (cur.payload.length + f.payload.length) && controlsFit o cur fs
    else controlsFit o (cur.after f) fs

/-! ## What the receiver holds -/

def Assembly.holding : Held → Assembly
  | none => .idle
  | some (t, m) =>
    { expectingFragments := true, compress := false, msgType := t
      message := if m = [] then none else some m }

variable {o : Options} {cur : Held} {f : WireFrame} {fs : List WireFrame}

theorem holding_len (cur : Held) : (Assembly.holding cur).len = cur.payload.length := by
  cases cur with
  | none => rfl
  | some c =>
    obtain ⟨t, m⟩ := c
    unfold Assembly.holding Assembly.len
    by_cases hm : m = []
    · simp [hm, Held.payload]
    · simp [hm, Held.payload]

theorem holding_wf (h : Within o cur.payload.length) : (Assembly.holding cur).WF o := by
  refine ⟨?_, ?_⟩
  · rw [holding_len]
    have := h.1
    omega
  · rw [holding_len]
    exact h.2

theorem Within.mono {m n : Nat} (h : Within o n) (hle : m ≤ n) : Within o m := by
  refine ⟨?_, ?_⟩
  · have := h.1
    omega
  · intro hpos
    have := h.2 hpos
    omega

theorem within_zero (o : Options) : Within o 0 := ⟨by decide, fun hpos => Int.le_of_lt hpos⟩

theorem Held.payload_le_add (cur : Held) (f : WireFrame) :
    cur.payload.length ≤ (cur.add f).2.length := by
  cases cur with
  | none => exact Nat.zero_le _
  | some c => simp [Held.payload, Held.add]

theorem held_within (h : ∀ n ∈ totals cur fs, Within o n) : Within o cur.payload.length := by
  induction fs generalizing cur with
  | nil =>
    cases cur with
    | none => exact within_zero o
    | some c => exact h _ (mem_singleton_self _)
  | cons f fs ih =>
    unfold totals at h
    split at h
    · exact ih h
    · cases hfin : f.fin with
      | true =>
        rw [hfin] at h
        exact (h _ mem_cons_self).mono (cur.payload_le_add f)
      | false =>
        rw [hfin] at h
        have hafter : Held.payload (cur.after f) = (cur.add f).2 := by
          rw [Held.after, hfin]
          rfl
        have hadd := ih h
        rw [hafter] at hadd
        exact hadd.mono (cur.payload_le_add f)

theorem add_within (hdata : isControl f.opcode = false)
    (h : ∀ n ∈ totals cur (f :: fs), Within o n) :
    Within o (cur.add f).2.length ∧ ∀ n ∈ totals (cur.after f) fs, Within o n := by
  rw [totals, hdata] at h
  have hrest : ∀ n ∈ totals (cur.after f) fs, Within o n :=
    fun n hn => h n (mem_append_right _ hn)
  refine ⟨?_, hrest⟩
  cases hfin : f.fin with
  | true => exact h _ (by rw [hfin]; exact mem_cons_self)
  | false =>
    have hheld := held_within hrest
    rw [Held.after, hfin] at hheld
    exact hheld

/-! ## One frame -/

theorem length_encode (f : WireFrame) (h : f.payload.length + 14 < 2 ^ 63) :
    f.encode.length < 2 ^ 63 :=
  Nat.lt_of_le_of_lt (length_encodeFrame_le ..).2 h

/-- The message that a data frame belongs to has a type. -/
def Held.Typed (cur : Held) : Prop := ∀ t m, cur = some (t, m) → isTextOrBinary t

theorem appendMessage_held {m body : Bytes} (hlen : (m ++ body).length < 2 ^ 63) :
    appendMessage (if m = [] then none else some m) body =
      .ok (if m ++ body = [] then none else some (m ++ body)) := by
  unfold appendMessage
  by_cases hbody : body = []
  · rw [if_pos hbody, hbody, append_nil]
  · rw [if_neg hbody, if_neg (append_ne_nil_of_right_ne_nil m hbody)]
    by_cases hm : m = []
    · rw [if_pos hm, hm, nil_append]
    · rw [length_append] at hlen
      rw [if_neg hm]
      exact if_pos hlen

def delivered (message : MessageType × Bytes) : Log :=
  if message.2 = [] then [] else [.message message.1 message.2]

def fitsIn (cur : Held) (f : WireFrame) : Prop :=
  if cur.isSome then f.opcode = fragmentMessage else isTextOrBinary f.opcode

theorem Held.Typed.add (h : cur.Typed) (hop : fitsIn cur f) : isTextOrBinary (cur.add f).1 := by
  cases cur with
  | none => exact hop
  | some c => exact h c.1 c.2 rfl

theorem Held.Typed.after (h : cur.Typed) (hop : fitsIn cur f) : (cur.after f).Typed := by
  intro t m heq
  unfold Held.after at heq
  split at heq
  · cases heq
  · obtain rfl := congrArg Prod.fst (Option.some.inj heq)
    exact h.add hop

theorem onDataFrame_holding (hhandler : o.messageHandler = true) (htyped : cur.Typed)
    (hop : fitsIn cur f) (hlen : (cur.add f).2.length < 2 ^ 63) {g : Frame}
    (hopcode : g.opcode = f.opcode) (hbody : g.body = f.payload) (hfin : g.fin = f.fin)
    (hres1 : g.res1 = false) :
    onDataFrame o (.holding cur) g =
      .ok (.holding (cur.after f),
        (if f.fin then delivered (cur.add f) else []) ++ deliverFrame o (cur.add f).1 g) := by
  have hpayload : cur.payload ++ f.payload = (cur.add f).2 := by
    cases cur with
    | none => rfl
    | some c => rfl
  have hmessage := appendMessage_held (by rw [hpayload]; exact hlen)
  rw [hpayload, ← hbody] at hmessage
  generalize hm : (if (cur.add f).2 = [] then none else some (cur.add f).2) = message at hmessage
  have hadded : onDataFrame o (.holding cur) g =
      if g.fin then
        .ok (.idle, (message.map (Call.message (cur.add f).1)).toList ++
          deliverFrame o (cur.add f).1 g)
      else
        .ok (⟨true, false, (cur.add f).1, message⟩, deliverFrame o (cur.add f).1 g) := by
    cases cur with
    | none =>
      have hmessage : appendMessage none g.body = .ok message := hmessage
      unfold onDataFrame
      dsimp only [Assembly.holding, Assembly.idle]
      simp only [↓reduceIte, hhandler, hopcode, hres1, hmessage]
      rfl
    | some c =>
      obtain ⟨t, m⟩ := c
      have ht : t ≠ 0 := by
        rcases htyped t m rfl with rfl | rfl <;> decide
      have hmessage : appendMessage (if m = [] then none else some m) g.body = .ok message :=
        hmessage
      unfold onDataFrame
      dsimp only [Assembly.holding]
      simp only [ht, ↓reduceIte, hhandler, hmessage]
      rfl
  rw [hadded, hfin, ← hm]
  unfold Held.after delivered
  cases f.fin with
  | true =>
    by_cases hnil : (cur.add f).2 = []
    · rw [hnil]
      rfl
    · simp only [hnil]
      rfl
  | false => rfl

theorem not_tooLarge_of_within {n : Nat} (h : Within o n) :
    isMessageTooLarge o (wrap64 n) = false := by
  have hlt := h.1
  rw [wrap64_of_lt (by omega) (by omega), isMessageTooLarge]
  by_cases hpos : 0 < o.messageLengthLimit
  · rw [decide_eq_false (Int.not_lt.2 (h.2 hpos)), Bool.and_false]
  · rw [decide_eq_false hpos, Bool.false_and]

theorem isControl_eq_false_of_fitsIn (hop : fitsIn cur f) : isControl f.opcode = false := by
  unfold fitsIn isTextOrBinary at hop
  split at hop
  · rw [hop]
    rfl
  · rcases hop with h | h
    · rw [h]
      rfl
    · rw [h]
      rfl

theorem opcode_of_fitsIn (hop : fitsIn cur f) :
    f.opcode = fragmentMessage ∨ f.opcode = textMessage ∨ f.opcode = binaryMessage := by
  unfold fitsIn at hop
  split at hop
  · exact .inl hop
  · exact .inr hop

theorem validFrame_holding (hop : fitsIn cur f) :
    validFrame o f.opcode f.fin false false false (Assembly.holding cur).expectingFragments =
      none := by
  cases cur with
  | none =>
    rcases hop with h | h
    · rw [h]
      cases f.fin <;> rfl
    · rw [h]
      cases f.fin <;> rfl
  | some c =>
    have h : f.opcode = fragmentMessage := hop
    rw [h]
    cases f.fin <;> rfl

theorem dataFrame_taken (hhandler : o.messageHandler = true) (htyped : cur.Typed)
    (hop : fitsIn cur f) (hadd : Within o (cur.add f).2.length) :
    ∃ calls, deliveries calls = (if f.fin then delivered (cur.add f) else []) ∧
      ∀ log, (scanner o).Consumes ⟨.holding cur, log⟩ f.encode
        ⟨.holding (cur.after f), log ++ calls⟩ := by
  have hcontrol := isControl_eq_false_of_fitsIn hop
  have hopcode := opcode_of_fitsIn hop
  have hsum : cur.payload.length + f.payload.length = (cur.add f).2.length := by
    cases cur with
    | none => exact Nat.zero_add _
    | some c => exact length_append.symm
  have hlt := hadd.1
  have hon : onFrame o (.holding cur) (sentFrame f.masked f.opcode true f.fin f.payload false) =
      .ok (.holding (cur.after f), (if f.fin then delivered (cur.add f) else []) ++
        deliverFrame o (cur.add f).1 (sentFrame f.masked f.opcode true f.fin f.payload false)) := by
    have hsent : (sentFrame f.masked f.opcode true f.fin f.payload false).opcode = f.opcode := rfl
    rw [onFrame, if_pos (by rw [hsent]; exact hopcode)]
    exact onDataFrame_holding hhandler htyped hop (by omega) rfl rfl rfl rfl
  refine ⟨_, ?_, fun log => encodeFrame_consumed
    (holding_wf (hadd.mono (cur.payload_le_add f))) ?_ ?_ ?_ (validFrame_holding hop)
    (length_encode f (by omega)) hon⟩
  · rw [deliveries_append, deliveries_deliverFrame]
    unfold delivered
    split
    · split <;> rfl
    · rfl
  · rw [holding_len, ← Int.natCast_add, hsum]
    exact not_tooLarge_of_within hadd
  · rcases hopcode with h | h | h <;> rw [h] <;> decide
  · intro h
    exact absurd (hcontrol.symm.trans h) Bool.false_ne_true

theorem validFrame_control {t : MessageType} (h : isControl t = true) (e : Bool) :
    validFrame o t true false false false e = none := by
  rcases isControl_cases h with rfl | rfl | rfl <;> cases e <;> rfl

section Control

variable (hcontrol : isControl f.opcode = true) (hfin : f.fin = true)
  (hsize : f.payload.length ≤ maxControlFramePayloadSize) (hheld : Within o cur.payload.length)

include hcontrol hfin hsize hheld

theorem controlFrame_taken
    (hsmall : isMessageTooLarge o (cur.payload.length + f.payload.length) = false) (log : Log) :
    (scanner o).Consumes ⟨.holding cur, log⟩ f.encode
      ⟨.holding cur, log ++ [Call.protocol f.opcode f.payload]⟩ := by
  have hlt := hheld.1
  have hcases := isControl_cases hcontrol
  refine encodeFrame_consumed (holding_wf hheld) ?_ ?_ (fun _ => hsize) ?_
    (length_encode f (by omega)) ?_
  · rw [holding_len, wrap64_of_lt (by omega) (by omega)]
    exact hsmall
  · rcases hcases with h | h | h <;> rw [h] <;> decide
  · rw [hfin]
    exact validFrame_control hcontrol _
  · rcases hcases with h | h | h <;> rw [h] <;> rfl

omit hcontrol hfin hsize in
theorem frame_refused (hlarge : isMessageTooLarge o (cur.payload.length + f.payload.length) = true)
    (hlen : cur.payload.length + f.payload.length < 2 ^ 63) (log : Log) (ys : Bytes) :
    ∃ e, (scanner o).run ⟨.holding cur, log⟩ (f.encode ++ ys) = .error e := by
  obtain ⟨m, hm, hcode⟩ := lengthCode_code f.payload.length
  obtain ⟨hpayload, -⟩ := secondByte_bits hm f.masked
  rw [← hcode] at hpayload
  have hnext : nextFrame o (.holding cur) f.encode = .error .messageTooLarge := by
    have hlen₁ := holding_len cur
    unfold Assembly.len at hlen₁
    unfold WireFrame.encode encodeFrame nextFrame
    dsimp only
    rw [hpayload, bodyLength_lengthCode (by omega)]
    dsimp only
    rw [hlen₁, wrap64_of_lt (by omega) (by omega), hlarge, if_pos rfl]
  have hstop : (scanner o).next ⟨.holding cur, log⟩ (f.encode ++ ys) =
      .stop (log ++ closeNotice .messageTooLarge, .messageTooLarge) := by
    have hdecided : nextFrame o (.holding cur) f.encode ≠ .ok none := by
      rw [hnext]
      intro hok
      cases hok
    rw [scanner_next, Cfg.next, nextFrame_append (holding_wf hheld) _ _ hdecided, hnext]
  have hne : f.encode ++ ys ≠ [] := by
    exact cons_ne_nil _ _
  exact ⟨_, (scanner o).run_stop hne hstop⟩

end Control

/-! ## Sequences of frames -/

def isDelivered (message : MessageType × Bytes) : Bool := isControl message.1 || message.2 != []

theorem deliveries_message {message : MessageType × Bytes} (h : isTextOrBinary message.1) :
    delivered message = ([message].filter isDelivered).map delivery := by
  have hcontrol : isControl message.1 = false := by
    rcases h with h | h <;> rw [h] <;> rfl
  by_cases hnil : message.2 = []
  · simp [delivered, isDelivered, hcontrol, hnil]
  · simp [delivered, isDelivered, delivery, hcontrol, hnil]

theorem legal_control (hcontrol : isControl f.opcode = true) {b : Bool}
    (h : legal b (f :: fs) = true) :
    f.fin = true ∧ f.payload.length ≤ maxControlFramePayloadSize ∧ legal b fs = true := by
  rw [legal, if_pos hcontrol] at h
  simp only [Bool.and_eq_true, decide_eq_true_eq] at h
  exact ⟨h.1.1.1, h.1.1.2, h.2⟩

theorem legal_data (hcontrol : isControl f.opcode = false)
    (h : legal cur.isSome (f :: fs) = true) :
    fitsIn cur f ∧ legal (cur.after f).isSome fs = true := by
  rw [legal, hcontrol, if_neg Bool.false_ne_true, Bool.and_eq_true] at h
  constructor
  · cases cur with
    | none => simpa [fitsIn, isTextOrBinary] using h.1
    | some c => simpa [fitsIn] using h.1
  · unfold Held.after
    cases hfin : f.fin with
    | true => simpa [hfin] using h.2
    | false => simpa [hfin] using h.2

theorem frames_taken (hhandler : o.messageHandler = true) (htyped : cur.Typed)
    (hlegal : legal cur.isSome fs = true) (hsize : ∀ n ∈ totals cur fs, Within o n)
    (hfit : controlsFit o cur fs = true) :
    ∃ calls cur', deliveries calls = ((messagesOf cur fs).filter isDelivered).map delivery ∧
      ∀ log, (scanner o).Consumes ⟨.holding cur, log⟩ (fs.flatMap WireFrame.encode)
        ⟨.holding cur', log ++ calls⟩ := by
  induction fs generalizing cur with
  | nil =>
    refine ⟨[], cur, rfl, fun log => ?_⟩
    rw [append_nil]
    exact (scanner o).consumes_nil _
  | cons f fs ih =>
    have hheld := held_within hsize
    cases hcontrol : isControl f.opcode with
    | true =>
      obtain ⟨hfin, hshort, hrest⟩ := legal_control hcontrol hlegal
      rw [totals, if_pos hcontrol] at hsize
      rw [controlsFit, if_pos hcontrol, Bool.and_eq_true, Bool.not_eq_true'] at hfit
      obtain ⟨calls, cur', hcalls, hrun⟩ := ih htyped hrest hsize hfit.2
      refine ⟨Call.protocol f.opcode f.payload :: calls, cur', ?_, fun log => ?_⟩
      · rw [messagesOf, if_pos hcontrol, filter_cons_of_pos (by simp [isDelivered, hcontrol]),
          map_cons, ← hcalls, delivery, if_pos hcontrol]
        rfl
      · have hstep := controlFrame_taken hcontrol hfin hshort hheld hfit.1 log
        have htail := hrun (log ++ [Call.protocol f.opcode f.payload])
        rw [append_assoc] at htail
        exact hstep.append htail
    | false =>
      obtain ⟨hop, hrest⟩ := legal_data hcontrol hlegal
      obtain ⟨hadd, hsize⟩ := add_within hcontrol hsize
      rw [controlsFit, hcontrol] at hfit
      obtain ⟨calls₁, hcalls₁, hrun₁⟩ := dataFrame_taken hhandler htyped hop hadd
      obtain ⟨calls₂, cur', hcalls₂, hrun₂⟩ := ih (htyped.after hop) hrest hsize hfit
      refine ⟨calls₁ ++ calls₂, cur', ?_, fun log => ?_⟩
      · rw [messagesOf, hcontrol, if_neg Bool.false_ne_true, filter_append, map_append,
          deliveries_append, hcalls₁]
        congr 1
        split
        · exact deliveries_message (htyped.add hop)
        · rfl
      · rw [← append_assoc]
        exact (hrun₁ log).append (hrun₂ (log ++ calls₁))

theorem frames_refused (hhandler : o.messageHandler = true) (htyped : cur.Typed)
    (hlegal : legal cur.isSome fs = true) (hsize : ∀ n ∈ totals cur fs, Within o n)
    (hfit : controlsFit o cur fs = false) (log : Log) :
    ∃ e, (scanner o).run ⟨.holding cur, log⟩ (fs.flatMap WireFrame.encode) = .error e := by
  induction fs generalizing cur log with
  | nil => cases hfit
  | cons f fs ih =>
    rw [flatMap_cons]
    have hheld := held_within hsize
    cases hcontrol : isControl f.opcode with
    | true =>
      obtain ⟨hfin, hshort, hrest⟩ := legal_control hcontrol hlegal
      rw [totals, if_pos hcontrol] at hsize
      rw [controlsFit, if_pos hcontrol] at hfit
      cases hlarge : isMessageTooLarge o (cur.payload.length + f.payload.length) with
      | true =>
        have hlt := hheld.1
        exact frame_refused hheld hlarge (by omega) log _
      | false =>
        rw [hlarge] at hfit
        rw [controlFrame_taken hcontrol hfin hshort hheld hlarge log]
        exact ih htyped hrest hsize hfit _
    | false =>
      obtain ⟨hop, hrest⟩ := legal_data hcontrol hlegal
      obtain ⟨hadd, hsize⟩ := add_within hcontrol hsize
      rw [controlsFit, hcontrol] at hfit
      obtain ⟨calls, -, hrun⟩ := dataFrame_taken hhandler htyped hop hadd
      rw [hrun log]
      exact ih (htyped.after hop) hrest hsize hfit _

theorem parse_newConn (o : Options) (data : Bytes) :
    parse o newConn [] data = result ((scanner o).run newCfg data) :=
  parse_eq_of_fits ((scanner o).settled_nil newCfg) fun _ hne => absurd rfl hne

theorem feed_newConn_of_fits {segs : List Bytes} (h : fitsReadLimit o newConn [] segs = true) :
    feed o newConn [] segs = result ((scanner o).run newCfg segs.flatten) := by
  have hs := (scanner o).settled_nil newCfg
  have hfeed : feed o newConn [] segs = _ := feed_eq_of_fits hs h
  rw [hfeed, (scanner o).foldlM_feed (newCfg_valid o) hs]
  rfl

/-- However a legal sequence of frames is cut into calls of `Parse`, no error is returned and every
message is delivered once, in order, with its type and payload, exactly when no data message is
empty and every control frame is within `MessageLengthLimit` together with the message in
progress. -/
theorem reassembly_complete_iff (o : Options) (fs : List WireFrame) (segs : List Bytes)
    (hhandler : o.messageHandler = true) (hlegal : legal false fs = true)
    (hsize : ∀ n ∈ totals none fs, Within o n)
    (hcut : segs.flatten = fs.flatMap WireFrame.encode)
    (hread : fitsReadLimit o newConn [] segs = true) :
    (∃ log c, feed o newConn [] segs = (log, .ok c) ∧
        deliveries log = (messagesOf none fs).map delivery) ↔
      (∀ message ∈ messagesOf none fs, isControl message.1 = false → message.2 ≠ []) ∧
        controlsFit o none fs = true := by
  have htyped : Held.Typed none := nofun
  have hfeed := feed_newConn_of_fits hread
  rw [hcut] at hfeed
  cases hfit : controlsFit o none fs with
  | false =>
    obtain ⟨e, he⟩ := frames_refused hhandler htyped hlegal hsize hfit []
    have hrun : (scanner o).run newCfg (fs.flatMap WireFrame.encode) = .error e := he
    constructor
    · rintro ⟨log, c, hok, -⟩
      rw [hfeed, hrun] at hok
      cases hok
    · rintro ⟨-, h⟩
      cases h
  | true =>
    obtain ⟨calls, cur', hcalls, htaken⟩ := frames_taken hhandler htyped hlegal hsize hfit
    have hlog : feed o newConn [] segs = (calls, .ok (Cfg.waiting ⟨.holding cur', calls⟩ [])) := by
      rw [hfeed]
      exact congrArg result (htaken []).run
    have hall : (∀ message ∈ messagesOf none fs, isControl message.1 = false → message.2 ≠ []) ↔
        ∀ message ∈ messagesOf none fs, isDelivered message = true := by
      refine forall₂_congr fun message _ => ?_
      cases hcontrol : isControl message.1 with
      | true => simp [isDelivered, hcontrol]
      | false => simp [isDelivered, hcontrol]
    rw [hall]
    constructor
    · rintro ⟨log, c, hok, hdelivered⟩
      rw [hlog] at hok
      obtain rfl : calls = log := congrArg Prod.fst hok
      rw [hcalls] at hdelivered
      -- the two sequences have one length, so none of the messages has been filtered out
      have hlength := congrArg length hdelivered
      rw [length_map, length_map, length_filter_eq_length_iff] at hlength
      exact ⟨hlength, rfl⟩
    · rintro ⟨h, -⟩
      refine ⟨calls, _, hlog, ?_⟩
      rw [hcalls, filter_eq_self.2 h]

def smallOptions : Options :=
  { plainOptions with messageLengthLimit := 4, messageLengthLimit_lt := by decide }

/-- The frames of a message with a control frame between them. -/
def interrupted (pong : Bytes) : List WireFrame :=
  [{ opcode := textMessage, fin := false, payload := ascii "ab", masked := true, key := 7 },
   { opcode := pongMessage, fin := true, payload := pong, masked := true, key := 8 },
   { opcode := fragmentMessage, fin := false, payload := [], masked := true, key := 9 },
   { opcode := fragmentMessage, fin := true, payload := ascii "cd", masked := true, key := 10 }]

theorem reassembly_complete_iff_interrupted :
    ∃ log c, feed smallOptions newConn []
        [((interrupted (ascii "hi")).flatMap WireFrame.encode).take 9,
          ((interrupted (ascii "hi")).flatMap WireFrame.encode).drop 9] = (log, .ok c) ∧
      deliveries log =
        [Call.protocol pongMessage (ascii "hi"), Call.message textMessage (ascii "abcd")] := by
  refine (reassembly_complete_iff smallOptions (interrupted (ascii "hi")) _ rfl (by decide)
    ?_ ?_ ?_).2 ?_
  · decide
  · simp
  · decide
  · decide

/-- A legal message without payload is dropped; a legal control frame of three bytes makes `Parse`
fail in the middle of a message that is within the limit. -/
theorem legal_frames_are_not_delivered :
    let empty : List WireFrame :=
      [{ opcode := textMessage, fin := true, payload := [], masked := true, key := 7 }]
    let pinged := interrupted (ascii "hey")
    (legal false empty = true ∧ messagesOf none empty = [(textMessage, [])] ∧
      feed smallOptions newConn [] [empty.flatMap WireFrame.encode] = ([], .ok newConn)) ∧
    (legal false pinged = true ∧ (∀ n ∈ totals none pinged, Within smallOptions n) ∧
      feed smallOptions newConn [] [pinged.flatMap WireFrame.encode] =
        ([.dataFrame textMessage false (ascii "ab"),
          .writeClose 1009 (ascii "message exceeds the configured limit")],
          .error .messageTooLarge)) := by
  decide

end Nbio.Websocket
