import Nbio.Websocket.Segmentation

/-!
# What is written is read back

A frame that `writeFrame` puts together is the frame that `nextFrame` finds (`nextFrame_encode`),
with each of the three encodings of its length, masked or not.  The frames that the loop of
`WriteMessage` makes of one message take the receiver from one message to the next
(`writeFrames_consumed`): the invariant is that the receiver holds what has been sent of the
message (`Assembly.gathering`).
-/

namespace Nbio.Websocket

open Nbio.Go Nbio.Lib List

variable {o : Options}

/-! ## One frame -/

theorem firstByte_bits {op : MessageType} (hop : op.toNat < 16) (compress fin : Bool) :
    let b := op ||| (if compress then 0x40 else 0) ||| (if fin then 0x80 else 0)
    b &&& 0xF = op ∧ (b &&& 0x80 != 0) = fin ∧ (b &&& 0x40 != 0) = compress ∧
      (b &&& 0x20 != 0) = false ∧ (b &&& 0x10 != 0) = false := by
  have hall : ∀ n < 16, ∀ compress fin : Bool,
      let op := UInt8.ofNat n
      let b := op ||| (if compress then 0x40 else 0) ||| (if fin then 0x80 else 0)
      b &&& 0xF = op ∧ (b &&& 0x80 != 0) = fin ∧ (b &&& 0x40 != 0) = compress ∧
        (b &&& 0x20 != 0) = false ∧ (b &&& 0x10 != 0) = false := by
    decide
  have h := hall op.toNat hop compress fin
  rwa [UInt8.ofNat_toNat] at h

theorem secondByte_bits {n : Nat} (hn : n < 128) (isClient : Bool) :
    let b := (if isClient then 0x80 else 0) ||| UInt8.ofNat n
    b &&& 0x7F = UInt8.ofNat n ∧ (b &&& 0x80 != 0) = isClient := by
  revert n isClient
  decide

theorem lengthCode_code (n : Nat) : ∃ m < 128, (lengthCode n).1 = UInt8.ofNat m := by
  unfold lengthCode
  split
  · next h => exact ⟨n, by omega, rfl⟩
  · split
    · exact ⟨126, by decide, rfl⟩
    · exact ⟨127, by decide, rfl⟩

theorem length_lengthCode (n : Nat) : (lengthCode n).2.length ≤ 8 := by
  unfold lengthCode
  split
  · exact Nat.zero_le _
  · split
    · rw [length_putBeUint]
      decide
    · rw [length_putBeUint]

theorem bodyLength_lengthCode {n : Nat} (hn : n < 2 ^ 63) (b₀ b₁ : UInt8) (rest : Bytes) :
    bodyLength (lengthCode n).1 (b₀ :: b₁ :: ((lengthCode n).2 ++ rest)) =
      .ok (n, 2 + (lengthCode n).2.length) := by
  unfold lengthCode
  split
  · next h =>
    have hn : (UInt8.ofNat n).toNat = n := UInt8.toNat_ofNat_of_lt' (by omega : n < 2 ^ 8)
    have hne : ∀ c : UInt8, 126 ≤ c.toNat → UInt8.ofNat n ≠ c := by
      intro c hc heq
      rw [← heq] at hc
      omega
    unfold bodyLength
    rw [if_neg (hne 126 (by decide)), if_neg (hne 127 (by decide)), hn]
    rfl
  · split
    · next hle =>
      unfold bodyLength
      have hlen : 4 ≤ (b₀ :: b₁ :: (putBeUint 2 n ++ rest)).length := by
        simp only [length_cons, length_append, length_putBeUint]
        omega
      have htake : ((b₀ :: b₁ :: (putBeUint 2 n ++ rest)).drop 2).take 2 = putBeUint 2 n :=
        take_left' (length_putBeUint 2 n)
      rw [htake, beUint_putBeUint (by omega)]
      rfl
    · unfold bodyLength
      have hlen : 10 ≤ (b₀ :: b₁ :: (putBeUint 8 n ++ rest)).length := by
        simp only [length_cons, length_append, length_putBeUint]
        omega
      have htake : ((b₀ :: b₁ :: (putBeUint 8 n ++ rest)).drop 2).take 8 = putBeUint 8 n :=
        take_left' (length_putBeUint 8 n)
      dsimp only
      rw [if_pos rfl, htake, beUint_putBeUint (by omega), wrap64_of_lt (by omega) (by omega)]
      rfl

def keyLength (isClient : Bool) : Nat := if isClient then 4 else 0

theorem keyLength_le (isClient : Bool) : keyLength isClient ≤ 4 := by
  cases isClient <;> decide

section

variable (isClient : Bool) (u32 : UInt32)

include isClient u32

theorem length_maskedPayload (data : Bytes) :
    (maskedPayload isClient u32 data).length = keyLength isClient + data.length := by
  unfold maskedPayload keyLength
  split
  · have hkey := length_putLeUint 4 u32.toNat
    rw [length_append, hkey, length_maskXOR data hkey]
  · exact (Nat.zero_add _).symm

theorem length_encodeFrame (t : MessageType) (sendOpcode fin : Bool) (data : Bytes)
    (compress : Bool) :
    (encodeFrame isClient u32 t sendOpcode fin data compress).length =
      2 + (lengthCode data.length).2.length + keyLength isClient + data.length := by
  unfold encodeFrame
  simp only [length_cons, length_append, length_maskedPayload]
  omega

theorem length_encodeFrame_le (t : MessageType) (sendOpcode fin : Bool) (data : Bytes)
    (compress : Bool) :
    data.length ≤ (encodeFrame isClient u32 t sendOpcode fin data compress).length ∧
      (encodeFrame isClient u32 t sendOpcode fin data compress).length ≤ data.length + 14 := by
  have hcode := length_lengthCode data.length
  have hkey := keyLength_le isClient
  rw [length_encodeFrame]
  omega

theorem unmask_maskedPayload (data head : Bytes) :
    let frame := head ++ maskedPayload isClient u32 data
    let start := head.length + keyLength isClient
    let body := (frame.drop start).take data.length
    (if isClient then maskXOR body ((frame.drop (start - 4)).take 4) else body) = data := by
  unfold maskedPayload keyLength
  cases isClient with
  | false =>
    dsimp only
    rw [if_neg Bool.false_ne_true, if_neg Bool.false_ne_true, if_neg Bool.false_ne_true,
      Nat.add_zero, drop_left, take_length]
  | true =>
    dsimp only
    have hkey := length_putLeUint 4 u32.toNat
    rw [if_pos rfl, if_pos rfl, if_pos rfl, Nat.add_sub_cancel, drop_left, take_left' hkey,
      ← append_assoc, drop_left' (by rw [length_append, hkey]),
      take_of_length_le (by rw [length_maskXOR data hkey]), maskXOR_maskXOR data hkey]

end

theorem takeFrame_maskedPayload {isClient e : Bool} {u32 : UInt32} {data : Bytes}
    {b₀ b₁ : UInt8} (head : Bytes) (hmask : (b₁ &&& 0x80 != 0) = isClient)
    (hlen : (head ++ maskedPayload isClient u32 data).length < 2 ^ 63)
    (hvalid : validFrame o (b₀ &&& 0xF) (b₀ &&& 0x80 != 0) (b₀ &&& 0x40 != 0)
      (b₀ &&& 0x20 != 0) (b₀ &&& 0x10 != 0) e = none) :
    takeFrame o e b₀ b₁ head.length data.length (head ++ maskedPayload isClient u32 data) =
      .ok (some { total := (head.length + keyLength isClient + data.length : Nat)
                  opcode := b₀ &&& 0xF, body := data, fin := b₀ &&& 0x80 != 0
                  res1 := b₀ &&& 0x40 != 0 }) := by
  have hpayload := length_maskedPayload isClient u32 data
  have hbody := unmask_maskedPayload isClient u32 data head
  rw [length_append] at hlen
  have hhead : (if isClient = true then (head.length : Int) + 4 else head.length) =
      (head.length + keyLength isClient : Nat) := by
    unfold keyLength
    split <;> omega
  unfold takeFrame
  dsimp only
  rw [hmask, hhead, wrap64_of_lt (by omega) (by omega),
    if_pos (by rw [length_append]; omega), if_neg (by omega), hvalid]
  have hstart : ((head.length + keyLength isClient : Nat) : Int).toNat =
    head.length + keyLength isClient := Int.toNat_natCast _
  have hkey : (((head.length + keyLength isClient : Nat) : Int) - 4).toNat =
    head.length + keyLength isClient - 4 := by omega
  have htake : (((head.length + keyLength isClient : Nat) : Int) + data.length -
      (head.length + keyLength isClient : Nat)).toNat = data.length := by omega
  rw [hstart, hkey, htake]
  rw [hbody, Int.natCast_add (head.length + keyLength isClient)]

def sentFrame (isClient : Bool) (t : MessageType) (sendOpcode fin : Bool) (data : Bytes)
    (compress : Bool) : Frame :=
  { total := (2 + (lengthCode data.length).2.length + keyLength isClient + data.length : Nat)
    opcode := if sendOpcode then t else 0, body := data, fin := fin, res1 := compress }

variable {isClient : Bool} {u32 : UInt32} {t : MessageType} {sendOpcode fin : Bool}
  {data : Bytes} {compress : Bool} {a : Assembly}

theorem nextFrame_encode
    (hsmall : isMessageTooLarge o (wrap64 (a.len + data.length)) = false) (ht : t.toNat < 16)
    (hcontrol : isControl (if sendOpcode then t else 0) = true → data.length ≤ 125)
    (hvalid : validFrame o (if sendOpcode then t else 0) fin compress false false
      a.expectingFragments = none)
    (hlen : (encodeFrame isClient u32 t sendOpcode fin data compress).length < 2 ^ 63) :
    nextFrame o a (encodeFrame isClient u32 t sendOpcode fin data compress) =
      .ok (some (sentFrame isClient t sendOpcode fin data compress)) := by
  have hlength := length_encodeFrame isClient u32 t sendOpcode fin data compress
  obtain ⟨m, hm, hcode⟩ := lengthCode_code data.length
  unfold encodeFrame at hlength hlen ⊢
  generalize hop : (if sendOpcode = true then t else 0) = op at hcontrol hvalid hlength hlen ⊢
  have hop16 : op.toNat < 16 := by
    rw [← hop]
    split
    · exact ht
    · decide
  obtain ⟨hopcode, hfin, hres1, hres2, hres3⟩ := firstByte_bits hop16 compress fin
  obtain ⟨hpayload, hmask⟩ := secondByte_bits hm isClient
  rw [← hcode] at hpayload hmask
  generalize op ||| (if compress = true then 0x40 else 0) ||| (if fin = true then 0x80 else 0) = b₀
    at hopcode hfin hres1 hres2 hres3 hlength hlen ⊢
  generalize hb₁ : (if isClient = true then 0x80 else 0) ||| (lengthCode data.length).1 = b₁
    at hpayload hmask hlength hlen ⊢
  have hshort : (maxControlFramePayloadSize < (data.length : Int) && isControl op) = false := by
    cases hc : isControl op with
    | false => exact Bool.and_false _
    | true =>
      have := hcontrol hc
      rw [Bool.and_true, decide_eq_false_iff_not, maxControlFramePayloadSize]
      omega
  unfold nextFrame
  dsimp only
  rw [hpayload, bodyLength_lengthCode (by omega)]
  unfold Assembly.len at hsmall
  dsimp only
  rw [hsmall, hopcode, hshort]
  have hhead : ((b₀ :: b₁ :: (lengthCode data.length).2).length : Int) =
      2 + (lengthCode data.length).2.length := by
    simp only [length_cons]
    omega
  have htake := takeFrame_maskedPayload (b₀ :: b₁ :: _) hmask hlen
    (by rw [hopcode, hfin, hres1, hres2, hres3]; exact hvalid)
  rw [hopcode, hfin, hres1, hhead] at htake
  rw [sentFrame, hop, ← Nat.add_comm (lengthCode data.length).2.length]
  exact htake

theorem not_tooLarge (hlimit : o.messageLengthLimit ≤ 0) (n : Int) :
    isMessageTooLarge o n = false := by
  rw [isMessageTooLarge, decide_eq_false (by omega), Bool.false_and]

theorem encodeFrame_consumed {a' : Assembly} {log calls : Log} (ha : a.WF o)
    (hsmall : isMessageTooLarge o (wrap64 (a.len + data.length)) = false) (ht : t.toNat < 16)
    (hcontrol : isControl (if sendOpcode then t else 0) = true → data.length ≤ 125)
    (hvalid : validFrame o (if sendOpcode then t else 0) fin compress false false
      a.expectingFragments = none)
    (hlen : (encodeFrame isClient u32 t sendOpcode fin data compress).length < 2 ^ 63)
    (hon : onFrame o a (sentFrame isClient t sendOpcode fin data compress) = .ok (a', calls)) :
    (scanner o).Consumes ⟨a, log⟩ (encodeFrame isClient u32 t sendOpcode fin data compress)
      ⟨a', log ++ calls⟩ := by
  have hnext : (scanner o).next ⟨a, log⟩
      (encodeFrame isClient u32 t sendOpcode fin data compress) =
        .step ((sentFrame isClient t sendOpcode fin data compress).total.toNat - 1)
          ⟨a', log ++ calls⟩ := by
    rw [scanner_next, Cfg.next, nextFrame_encode hsmall ht hcontrol hvalid hlen]
    dsimp only [Cfg.take]
    rw [hon]
  refine (scanner o).consumes_step ha hnext ?_
  rw [length_encodeFrame, sentFrame, Int.toNat_natCast]
  omega

/-! ## One message -/

/-- The receiver holds `m` of a message of type `t`, which is compressed or not. -/
def Assembly.gathering (compress : Bool) (t : MessageType) (m : Bytes) : Assembly :=
  if m = [] then .idle
  else { expectingFragments := true, compress := compress, msgType := t, message := some m }

variable {m : Bytes}

theorem gathering_wf (hlimit : o.messageLengthLimit ≤ 0) (compress : Bool) (t : MessageType)
    (hm : m.length < 2 ^ 63) : (Assembly.gathering compress t m).WF o := by
  unfold Assembly.gathering
  split
  · exact Assembly.idle_wf o
  · exact ⟨hm, fun hpos => absurd hpos (by omega)⟩

theorem validFrame_gathering (ht : isTextOrBinary t)
    (henable : compress = true → o.enableCompression = true)
    (m : Bytes) (fin : Bool) :
    validFrame o (if decide (m = []) then t else 0) fin (compress && decide (m = [])) false false
      (Assembly.gathering compress t m).expectingFragments = none := by
  unfold Assembly.gathering validFrame
  by_cases hm : m = []
  · have hbit : (compress && !o.enableCompression) = false := by
      cases compress with
      | false => rfl
      | true => rw [henable rfl]; rfl
    rw [if_pos hm, decide_eq_true hm, Bool.and_true, hbit]
    rcases ht with rfl | rfl <;> cases fin <;> rfl
  · rw [if_neg hm, decide_eq_false hm, Bool.and_false]
    cases fin <;> rfl

/-- What is delivered besides the frames of messages. -/
def deliveries (log : Log) : Log :=
  log.filter fun
    | .dataFrame _ _ _ => false
    | _ => true

theorem deliveries_append (log₁ log₂ : Log) :
    deliveries (log₁ ++ log₂) = deliveries log₁ ++ deliveries log₂ := filter_append ..

theorem deliveries_deliverFrame (t : MessageType) (f : Frame) :
    deliveries (deliverFrame o t f) = [] := by
  unfold deliverFrame
  split <;> rfl

theorem onDataFrame_gathering (hhandler : o.messageHandler = true) (ht : isTextOrBinary t)
    (m : Bytes)
    (f : Frame) {whole : Bytes} (hop : f.opcode = if m = [] then t else 0)
    (hres1 : f.res1 = (compress && decide (m = []))) (hbody : f.body ≠ [])
    (hlen : m.length + f.body.length < 2 ^ 63)
    (hwhole : f.fin = true → wholeMessage o compress (some (m ++ f.body)) = .ok (some whole)) :
    onDataFrame o (.gathering compress t m) f =
      .ok (if f.fin then .idle else .gathering compress t (m ++ f.body),
        (if f.fin then [.message t whole] else []) ++ deliverFrame o t f) := by
  have ht0 : t ≠ 0 := by
    rcases ht with rfl | rfl <;> decide
  have happ : appendMessage (if m = [] then none else some m) f.body =
      .ok (some (m ++ f.body)) := by
    unfold appendMessage
    rw [if_neg hbody]
    by_cases hm : m = []
    · rw [if_pos hm, hm, nil_append]
    · rw [if_neg hm]
      exact if_pos hlen
  have hgather : Assembly.gathering compress t (m ++ f.body) =
      { expectingFragments := true, compress := compress, msgType := t
        message := some (m ++ f.body) } :=
    if_neg (append_ne_nil_of_right_ne_nil m hbody)
  unfold onDataFrame
  by_cases hm : m = []
  · rw [if_pos hm] at hop happ
    rw [decide_eq_true hm, Bool.and_true] at hres1
    rw [hgather, Assembly.gathering, if_pos hm, hop, hres1]
    dsimp only [Assembly.idle]
    simp only [↓reduceIte, hhandler, happ]
    cases hfin : f.fin with
    | false => rfl
    | true =>
      simp only [hwhole hfin]
      rfl
  · rw [if_neg hm] at happ
    rw [hgather, Assembly.gathering, if_neg hm]
    rw [if_neg ht0, if_pos hhandler, happ]
    cases hfin : f.fin with
    | false => rfl
    | true =>
      simp only [hwhole hfin]
      rfl

theorem dataFrame_consumed (hlimit : o.messageLengthLimit ≤ 0) (hhandler : o.messageHandler = true)
    (ht : isTextOrBinary t) (henable : compress = true → o.enableCompression = true) {whole : Bytes}
    (hdata : data ≠ []) (hfits : m.length + data.length < 2 ^ 63)
    (hlen : (encodeFrame isClient u32 t (decide (m = [])) fin data
      (compress && decide (m = []))).length < 2 ^ 63)
    (hwhole : fin = true → wholeMessage o compress (some (m ++ data)) = .ok (some whole)) :
    ∃ calls, deliveries calls = (if fin then [.message t whole] else []) ∧
      ∀ log, (scanner o).Consumes ⟨.gathering compress t m, log⟩
        (encodeFrame isClient u32 t (decide (m = [])) fin data (compress && decide (m = [])))
        ⟨if fin then .idle else .gathering compress t (m ++ data), log ++ calls⟩ := by
  have hop : (if decide (m = []) = true then t else 0) = if m = [] then t else 0 := by
    simp only [decide_eq_true_eq]
  have hopcode : (if m = [] then t else 0) = fragmentMessage ∨
      (if m = [] then t else 0) = textMessage ∨ (if m = [] then t else 0) = binaryMessage := by
    split
    · exact .inr ht
    · exact .inl rfl
  have ht16 : t.toNat < 16 := by
    rcases ht with rfl | rfl <;> decide
  have hcontrol : isControl (if decide (m = []) = true then t else 0) = false := by
    rw [hop]
    rcases hopcode with h | h | h <;> rw [h] <;> rfl
  let f := sentFrame isClient t (decide (m = [])) fin data (compress && decide (m = []))
  have hon : onFrame o (.gathering compress t m) f =
      .ok (if fin then .idle else .gathering compress t (m ++ data),
        (if fin then [.message t whole] else []) ++ deliverFrame o t f) := by
    rw [onFrame, if_pos (show f.opcode = _ ∨ _ by rw [← hop] at hopcode; exact hopcode)]
    exact onDataFrame_gathering hhandler ht m f hop rfl hdata hfits hwhole
  refine ⟨_, ?_, fun log => encodeFrame_consumed (gathering_wf hlimit compress t (by omega))
    (not_tooLarge hlimit _) ht16 (fun h => absurd (hcontrol.symm.trans h) Bool.false_ne_true)
    (validFrame_gathering ht henable m fin) hlen hon⟩
  rw [deliveries_append, deliveries_deliverFrame]
  split <;> rfl

/-- The frames that go out without an error take a receiver in state `a`, which holds `held` bytes,
to the end of a message, and it delivers `delivered`. -/
def Transmits (o : Options) (a : Assembly) (held : Nat) (w : Sent) (r : Option Err × Sent)
    (delivered : Log) : Prop :=
  ∃ count frames, r = (none, { count := count, frames := w.frames ++ frames }) ∧
    (held + frames.flatten.length < 2 ^ 63 → ∃ calls, deliveries calls = delivered ∧
      ∀ log, (scanner o).Consumes ⟨a, log⟩ frames.flatten ⟨.idle, log ++ calls⟩)

variable {p : Sender} {w : Sent}

theorem writeFrame_eq (haccept : ∀ n, p.refuses n = none) :
    writeFrame p w t sendOpcode fin data compress = (none,
      { count := w.count + 1
        frames := w.frames ++
          [encodeFrame p.isClient (p.rand w.count) t sendOpcode fin data compress] }) := by
  rw [writeFrame, haccept]

theorem writeFrames_nil (fuel : Nat) :
    writeFrames p (writeFrame p) t fuel w sendOpcode compress [] = (none, w) := by
  cases fuel with
  | zero => rfl
  | succ fuel => exact if_pos rfl

section

variable (haccept : ∀ n, p.refuses n = none)
  (hlimit : o.messageLengthLimit ≤ 0)
  (hhandler : o.messageHandler = true)

include haccept hlimit hhandler

theorem writeFrames_consumed (ht : isTextOrBinary t)
    (henable : compress = true → o.enableCompression = true) {fuel : Nat} {whole : Bytes}
    (hdata : data ≠ []) (hfuel : data.length ≤ fuel)
    (hwhole : wholeMessage o compress (some (m ++ data)) = .ok (some whole)) :
    ∃ count frames,
      writeFrames p (writeFrame p) t fuel w (decide (m = [])) (compress && decide (m = [])) data =
        (none, { count := count, frames := w.frames ++ frames }) ∧
      data.length ≤ frames.flatten.length ∧ (∀ x ∈ frames, x.length ≤ data.length + 14) ∧
      ((m ++ data).length < 2 ^ 63 → (∀ x ∈ frames, x.length < 2 ^ 63) →
        ∃ calls, deliveries calls = [.message t whole] ∧ ∀ log, (scanner o).ConsumesEach
          ⟨.gathering compress t m, log⟩ frames ⟨.idle, log ++ calls⟩) := by
  induction fuel generalizing w m data with
  | zero => exact absurd (eq_nil_of_length_eq_zero (Nat.le_zero.1 hfuel)) hdata
  | succ fuel ih =>
    have hpos := p.maxWebsocketFramePayloadSize_pos
    have hdpos := length_pos_iff.2 hdata
    unfold writeFrames
    rw [if_neg hdata]
    dsimp only
    generalize hn : (if p.maxWebsocketFramePayloadSize < data.length then
      p.maxWebsocketFramePayloadSize else data.length) = n
    have hn0 : 0 < n ∧ n ≤ data.length := by
      rw [← hn]
      split <;> omega
    have htake : data.take n ≠ [] := by
      intro hnil
      have := congrArg length hnil
      rw [length_take, length_nil] at this
      omega
    obtain ⟨hmore, hless⟩ := length_encodeFrame_le p.isClient (p.rand w.count) t (decide (m = []))
      (n == data.length) (data.take n) (compress && decide (m = []))
    rw [length_take] at hmore hless
    rw [writeFrame_eq haccept]
    dsimp only
    cases hfin : n == data.length with
    | true =>
      have hlast : n = data.length := eq_of_beq hfin
      rw [hfin, hlast, take_length] at hmore hless
      rw [hlast, drop_length, take_length, writeFrames_nil]
      refine ⟨_, _, rfl, ?_, fun x hx => ?_, fun hlen hframes => ?_⟩
      · rw [flatten_singleton]
        omega
      · rw [mem_singleton.1 hx]
        omega
      · obtain ⟨calls, hcalls, hcons⟩ := dataFrame_consumed hlimit hhandler ht henable hdata
          (by rw [← length_append]; exact hlen) (hframes _ mem_cons_self) fun _ => hwhole
        exact ⟨calls, hcalls, fun log => ⟨_, hcons log, rfl⟩⟩
    | false =>
      have hne : n ≠ data.length := fun heq => absurd (beq_of_eq heq) (by rw [hfin]; decide)
      have hdrop : data.drop n ≠ [] := fun hnil => by
        have := drop_eq_nil_iff.1 hnil
        omega
      have hm : decide (m ++ data.take n = []) = false :=
        decide_eq_false (append_ne_nil_of_right_ne_nil m htake)
      have hsplit : m ++ data.take n ++ data.drop n = m ++ data := by
        rw [append_assoc, take_append_drop]
      have hrest : data.length - n ≤ fuel := by omega
      obtain ⟨count, frames, heq, hlong, hshort, hcons⟩ := ih
        hdrop (by rw [length_drop]; exact hrest)
        (by rw [hsplit]; exact hwhole)
      rw [hm, Bool.and_false] at heq
      rw [length_drop] at hlong hshort
      rw [hsplit] at hcons
      rw [hfin] at hmore hless
      refine ⟨count, _ :: frames, by rw [heq, append_assoc, singleton_append], ?_, ?_,
        fun hlen hframes => ?_⟩
      · rw [flatten_cons, length_append]
        omega
      · intro x hx
        rcases mem_cons.1 hx with rfl | hx
        · omega
        · have := hshort x hx
          omega
      · have hfits : m.length + (data.take n).length < 2 ^ 63 := by
          rw [length_append] at hlen
          rw [length_take]
          omega
        have hunfinished : false = true →
            wholeMessage o compress (some (m ++ data.take n)) = .ok (some whole) := nofun
        obtain ⟨calls₁, hcalls₁, hcons₁⟩ :=
          dataFrame_consumed hlimit hhandler ht henable htake hfits
          (hframes _ mem_cons_self) hunfinished
        obtain ⟨calls₂, hcalls₂, hcons₂⟩ := hcons hlen fun x hx => hframes x (mem_cons_of_mem _ hx)
        refine ⟨calls₁ ++ calls₂, ?_, fun log => ⟨_, hcons₁ log, ?_⟩⟩
        · rw [deliveries_append, hcalls₁, hcalls₂]
          rfl
        · rw [← append_assoc]
          exact hcons₂ (log ++ calls₁)

theorem writeFrames_transmits (ht : isTextOrBinary t) {fuel : Nat} (hdata : data ≠ [])
    (hfuel : data.length ≤ fuel) :
    Transmits o (.gathering false t m) m.length w
      (writeFrames p (writeFrame p) t fuel w (decide (m = [])) false data)
        [.message t (m ++ data)] := by
  have henable : false = true → o.enableCompression = true := nofun
  obtain ⟨count, frames, heq, hlong, -, hcons⟩ := writeFrames_consumed
    haccept hlimit hhandler ht henable hdata hfuel rfl
  refine ⟨count, frames, heq, fun hlen => ?_⟩
  obtain ⟨calls, hcalls, heach⟩ := hcons (by rw [length_append]; omega) fun x hx => by
    have := (sublist_flatten_of_mem hx).length_le
    omega
  exact ⟨calls, hcalls, fun log => (heach log).flatten⟩

end

theorem isControl_cases (h : isControl t = true) :
    t = pingMessage ∨ t = pongMessage ∨ t = closeMessage := by
  rw [isControl, Bool.or_eq_true, Bool.or_eq_true, beq_iff_eq, beq_iff_eq, beq_iff_eq] at h
  exact or_assoc.1 h

theorem control_consumed (hlimit : o.messageLengthLimit ≤ 0) (ht : isControl t = true)
    (hdata : data.length ≤ 125) (log : Log)
    (hlen : (encodeFrame isClient u32 t true true data false).length < 2 ^ 63) :
    (scanner o).Consumes ⟨.idle, log⟩ (encodeFrame isClient u32 t true true data false)
      ⟨.idle, log ++ [Call.protocol t data]⟩ := by
  have hcases := isControl_cases ht
  refine encodeFrame_consumed (Assembly.idle_wf o) (not_tooLarge hlimit _) ?_ (fun _ => hdata)
    ?_ hlen ?_
  · rcases hcases with rfl | rfl | rfl <;> decide
  · rcases hcases with rfl | rfl | rfl <;> rfl
  · rcases hcases with rfl | rfl | rfl <;> rfl

theorem writeFrames_single (haccept : ∀ n, p.refuses n = none) {fuel : Nat} (hdata : data ≠ [])
    (hmax : data.length ≤ p.maxWebsocketFramePayloadSize) (hfuel : data.length ≤ fuel) :
    writeFrames p (writeFrame p) t fuel w sendOpcode compress data =
      writeFrame p w t sendOpcode true data compress := by
  cases fuel with
  | zero => exact absurd (eq_nil_of_length_eq_zero (Nat.le_zero.1 hfuel)) hdata
  | succ fuel =>
    unfold writeFrames
    rw [if_neg hdata, if_neg (Nat.not_lt.2 hmax)]
    dsimp only
    rw [beq_self_eq_true, take_length, drop_length, writeFrame_eq haccept]
    exact writeFrames_nil fuel

/-! ## Sequences of messages -/

/-- A text or binary message that is not empty, or a control message that fits into a frame. -/
def Sendable (message : MessageType × Bytes) : Prop :=
  (isTextOrBinary message.1 ∧ message.2 ≠ []) ∨
    (isControl message.1 = true ∧ message.2.length ≤ 125)

def delivery (message : MessageType × Bytes) : Call :=
  if isControl message.1 then .protocol message.1 message.2 else .message message.1 message.2

/-- A sender that is open and does not compress, over a connection that takes every frame, and a
receiver with a message handler and no limit on messages. -/
structure Plain (p : Sender) (o : Options) : Prop where
  isOpen : p.closed = false
  uncompressed : p.enableWriteCompression = false
  size : 125 ≤ p.maxWebsocketFramePayloadSize
  accepts : ∀ n, p.refuses n = none
  unlimited : o.messageLengthLimit ≤ 0
  handled : o.messageHandler = true

theorem writeMessage_transmits {message : MessageType × Bytes} (h : Plain p o)
    (hmessage : Sendable message) :
    Transmits o .idle 0 w (writeMessage p w message.1 message.2) [delivery message] := by
  obtain ⟨t, data⟩ := message
  have hcompressed : compressed p t data = (false, data) := by
    rw [compressed, h.uncompressed, Bool.false_and, if_neg Bool.false_ne_true]
  unfold writeMessage writeMessageBy
  rw [h.isOpen]
  rcases hmessage with ⟨ht, hdata⟩ | ⟨ht, hdata⟩
  · have hcontrol : isControl t = false := by
      rcases ht with ht | ht <;> dsimp only at ht <;> rw [ht] <;> rfl
    dsimp only [delivery] at hdata ⊢
    rw [hcontrol, hcompressed]
    rw [if_pos hdata]
    exact writeFrames_transmits (m := []) h.accepts h.unlimited h.handled ht hdata (Nat.le_refl _)
  · dsimp only [delivery] at ht hdata ⊢
    have hfits : decide (maxControlFramePayloadSize < data.length) = false :=
      decide_eq_false (Nat.not_lt.2 hdata)
    rw [ht, hfits, hcompressed]
    have hframe : (if data ≠ [] then writeFrames p (writeFrame p) t data.length w true false data
        else writeFrame p w t true true [] false) = writeFrame p w t true true data false := by
      by_cases hnil : data = []
      · rw [if_neg (not_not_intro hnil), hnil]
      · rw [if_pos hnil,
          writeFrames_single h.accepts hnil (Nat.le_trans hdata h.size) (Nat.le_refl _)]
    rw [hframe, writeFrame_eq h.accepts]
    refine ⟨_, _, rfl, fun hlen => ⟨[.protocol t data], rfl, fun log => ?_⟩⟩
    rw [flatten_singleton, Nat.zero_add] at hlen
    rw [flatten_singleton]
    exact control_consumed h.unlimited ht hdata log hlen

theorem writeMessages_transmits {messages : List (MessageType × Bytes)} (h : Plain p o)
    (hmessages : ∀ m ∈ messages, Sendable m) :
    Transmits o .idle 0 w (writeMessages p w messages) (messages.map delivery) := by
  induction messages generalizing w with
  | nil =>
    refine ⟨_, [], by rw [append_nil]; rfl, fun _ => ⟨[], rfl, fun log => ?_⟩⟩
    rw [append_nil]
    exact (scanner o).consumes_nil _
  | cons message messages ih =>
    obtain ⟨t, data⟩ := message
    obtain ⟨count, frames, heq, hcons⟩ :=
      writeMessage_transmits h (hmessages (t, data) mem_cons_self)
    rw [writeMessages, heq]
    obtain ⟨count', frames', heq', hcons'⟩ :=
      ih fun m hm => hmessages m (mem_cons_of_mem _ hm)
    refine ⟨count', frames ++ frames', by rw [← append_assoc]; exact heq', fun hlen => ?_⟩
    rw [flatten_append, length_append] at hlen
    obtain ⟨calls, hcalls, hrun⟩ := hcons (by omega)
    obtain ⟨calls', hcalls', hrun'⟩ := hcons' (by omega)
    refine ⟨calls ++ calls', ?_, fun log => ?_⟩
    · rw [deliveries_append, hcalls, hcalls']
      rfl
    · rw [flatten_append, ← append_assoc]
      exact (hrun log).append (hrun' (log ++ calls))

/-- However the frames of a sequence of messages are cut into pieces, the receiver delivers every
message once and in order, with its type and payload, and is then as new: it caches no bytes and
waits for the first frame of a message. -/
theorem feed_writeMessages (p : Sender) (o : Options) (messages : List (MessageType × Bytes))
    (segs : List Bytes) (hopen : p.closed = false) (hplain : p.enableWriteCompression = false)
    (hmax : 125 ≤ p.maxWebsocketFramePayloadSize) (haccept : ∀ n, p.refuses n = none)
    (hlimit : o.messageLengthLimit ≤ 0) (hhandler : o.messageHandler = true)
    (hmessages : ∀ m ∈ messages, Sendable m)
    (hcut : segs.flatten = (writeMessages p ⟨0, []⟩ messages).2.frames.flatten)
    (hread : (segs.flatten.length : Int) ≤ o.readLimit) :
    (writeMessages p ⟨0, []⟩ messages).1 = none ∧
      ∃ log, feed o newConn [] segs = (log, .ok newConn) ∧
        deliveries log = messages.map delivery := by
  have hlt := o.readLimit_lt
  obtain ⟨count, frames, heq, hcons⟩ := writeMessages_transmits
    ⟨hopen, hplain, hmax, haccept, hlimit, hhandler⟩ hmessages
  rw [heq, nil_append] at hcut
  rw [heq]
  obtain ⟨calls, hcalls, hrun⟩ := hcons (by rw [← hcut]; omega)
  refine ⟨rfl, calls, ?_, hcalls⟩
  rw [feed_newConn hread, hcut]
  exact congrArg result (hrun []).run

/-- A client whose frames hold 125 bytes at most. -/
def plainClient : Sender :=
  { closed := false, isClient := true, enableWriteCompression := false
    maxWebsocketFramePayloadSize := 125, rand := fun n => UInt32.ofNat (n * 1000003)
    deflate := fun _ => none, refuses := fun _ => none
    maxWebsocketFramePayloadSize_pos := by decide }

/-- A message in two frames between two control messages. -/
def exampleMessages : List (MessageType × Bytes) :=
  [(pingMessage, []), (textMessage, replicate 126 97), (closeMessage, [3, 232])]

theorem feed_writeMessages_client :
    let o : Options := { plainOptions with readLimit := 1000, readLimit_lt := by decide }
    let stream := (writeMessages plainClient ⟨0, []⟩ exampleMessages).2.frames.flatten
    stream.length = 152 ∧
      ((writeMessages plainClient ⟨0, []⟩ exampleMessages).1 = none ∧
        ∃ log, feed o newConn [] [stream] = (log, .ok newConn) ∧
          deliveries log = exampleMessages.map delivery) :=
  have hlen :
      (writeMessages plainClient ⟨0, []⟩ exampleMessages).2.frames.flatten.length = 152 := by
    decide +kernel
  ⟨hlen, feed_writeMessages plainClient _ exampleMessages [_] rfl rfl (by decide) (fun _ => rfl)
    (by decide) rfl (by simp [exampleMessages, Sendable, isTextOrBinary, isControl])
    flatten_singleton (by rw [flatten_singleton, hlen]; decide)⟩

end Nbio.Websocket
