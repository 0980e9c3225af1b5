import Nbio.Websocket.Segmentation

/-!
# The arithmetic of frame lengths

`nextFrame` adds the length of a payload to that of the message so far, to compare the sum with the
limit, and to the length of the head, to see where the frame ends.  Both sums are of type `int64`,
and a head can announce any length below `2^64`.

`frameTrace` is `nextFrame` with the sums and the slice that it evaluates on its way
(`frameTrace_snd`).
-/

namespace Nbio.Websocket

open Nbio.Go

/-- The sums that have been evaluated, each with its mathematical value, and the bounds of
slices. -/
structure LengthTrace where
  sums : List (Int × Int)
  slices : List (Int × Int)
deriving DecidableEq, Repr

def LengthTrace.empty : LengthTrace := ⟨[], []⟩

section

variable (o : Options)

/-- The end of `nextFrame`, with what it evaluates. -/
def takeTrace (sums : List (Int × Int)) (b₁ : UInt8) (headLen bodyLen : Int) (data : Bytes) :
    LengthTrace :=
  let headLen := if b₁ &&& 0x80 != 0 then headLen + 4 else headLen
  let total := wrap64 (headLen + bodyLen)
  ⟨sums ++ [(total, headLen + bodyLen)], if total ≤ data.length then [(headLen, total)] else []⟩

/-- What follows when `bodyLen` has been read. -/
def lengthTrace (a : Assembly) (b₀ b₁ : UInt8) (bodyLen headLen : Int) (data : Bytes) :
    LengthTrace × Except Err (Option Frame) :=
  let sum := wrap64 (a.len + bodyLen)
  let sums := [(sum, a.len + bodyLen)]
  if isMessageTooLarge o sum then (⟨sums, []⟩, .error .messageTooLarge)
  else if maxControlFramePayloadSize < bodyLen && isControl (b₀ &&& 0xF) then
    (⟨sums, []⟩, .error .controlMessageTooBig)
  else if 0 ≤ bodyLen then
    (takeTrace sums b₁ headLen bodyLen data,
      takeFrame o a.expectingFragments b₀ b₁ headLen bodyLen data)
  else (⟨sums, []⟩, .ok none)

/-- `nextFrame`, with what it evaluates. -/
def frameTrace (a : Assembly) (data : Bytes) : LengthTrace × Except Err (Option Frame) :=
  match data with
  | b₀ :: b₁ :: _ =>
    match bodyLength (b₁ &&& 0x7F) data with
    | .error e => (.empty, .error e)
    | .ok (bodyLen, headLen) => lengthTrace o a b₀ b₁ bodyLen headLen data
  | _ => (.empty, .ok none)

/-- What a complete head announces: the opcode, the length of the payload as the 64 bits say it, and
the length of the head. -/
def announced (data : Bytes) : Option (MessageType × Nat × Nat) :=
  match data with
  | b₀ :: b₁ :: _ =>
    let payloadLen := b₁ &&& 0x7F
    let mask := if b₁ &&& 0x80 != 0 then 4 else 0
    if payloadLen = 126 then
      if 4 ≤ data.length then some (b₀ &&& 0xF, beUint ((data.drop 2).take 2), 4 + mask) else none
    else if payloadLen = 127 then
      if 10 ≤ data.length then some (b₀ &&& 0xF, beUint ((data.drop 2).take 8), 10 + mask) else none
    else some (b₀ &&& 0xF, payloadLen.toNat, 2 + mask)
  | _ => none

def isDataFrame (opcode : MessageType) : Bool := opcode == fragmentMessage || isTextOrBinary opcode

/-- The sums are mathematical, the slice is within the cache, and a data frame that makes the
message too long is turned away by its head. -/
structure LengthsRight (a : Assembly) (data : Bytes) : Prop where
  sums : ∀ p ∈ (frameTrace o a data).1.sums, p.1 = p.2
  slices : ∀ p ∈ (frameTrace o a data).1.slices, 0 ≤ p.1 ∧ p.1 ≤ p.2 ∧ p.2 ≤ data.length
  limit : 0 < o.messageLengthLimit → ∀ opcode len headLen,
    announced data = some (opcode, len, headLen) → isDataFrame opcode = true →
      o.messageLengthLimit < (a.len : Int) + len → nextFrame o a data = .error .messageTooLarge

/-- The head is not complete; or its length is no `int64`, for a frame of no message or without a
limit; or the message with this frame is a slice, and so is the frame unless it is turned away. -/
def Representable (a : Assembly) (data : Bytes) : Prop :=
  match announced data with
  | none => True
  | some (opcode, len, headLen) =>
    if 2 ^ 63 ≤ len then o.messageLengthLimit ≤ 0 ∨ isDataFrame opcode = false
    else
      a.len + len < 2 ^ 63 ∧
        (isMessageTooLarge o (a.len + len : Nat) = true ∨
          maxControlFramePayloadSize < len ∧ isControl opcode = true ∨ headLen + len < 2 ^ 63)

instance (a : Assembly) (data : Bytes) : Decidable (Representable o a data) := by
  unfold Representable
  split <;> infer_instance

end

variable {o : Options} {a : Assembly} {data : Bytes}

theorem frameTrace_snd (o : Options) (a : Assembly) (data : Bytes) :
    (frameTrace o a data).2 = nextFrame o a data := by
  match data with
  | [] => rfl
  | [_] => rfl
  | b₀ :: b₁ :: rest =>
    cases hlen : bodyLength (b₁ &&& 0x7F) (b₀ :: b₁ :: rest) with
    | error e => simp only [frameTrace, nextFrame, hlen]
    | ok r =>
      simp only [frameTrace, nextFrame, hlen]
      change (lengthTrace o a b₀ b₁ r.1 r.2 _).2 =
        if isMessageTooLarge o (wrap64 (a.len + r.1)) then _ else _
      unfold lengthTrace
      dsimp only
      split
      · rfl
      · split
        · rfl
        · split <;> rfl

/-- What `bodyLength` makes of a head. -/
inductive HeadCase (b₀ b₁ : UInt8) (data : Bytes) : Prop where
  | incomplete (hnone : announced data = none) (hlen : bodyLength (b₁ &&& 0x7F) data = .ok (-1, 2))
  | negative (len headLen : Nat) (hsome : announced data = some (b₀ &&& 0xF, len, headLen))
    (hge : 2 ^ 63 ≤ len)
    (hlen : bodyLength (b₁ &&& 0x7F) data = .error .invalidFragmentMessage)
  | length (len head headLen : Nat) (hsome : announced data = some (b₀ &&& 0xF, len, headLen))
    (hlt : len < 2 ^ 63) (hlen : bodyLength (b₁ &&& 0x7F) data = .ok ((len : Int), (head : Int)))
    (hhead : (if b₁ &&& 0x80 != 0 then (head : Int) + 4 else head) = headLen) (hle : headLen ≤ 14)

theorem wrap64_nat_neg_iff {n : Nat} (h : n < 2 ^ 64) : wrap64 n < 0 ↔ 2 ^ 63 ≤ n := by
  unfold wrap64
  omega

theorem headCase (b₀ b₁ : UInt8) (rest : Bytes) : HeadCase b₀ b₁ (b₀ :: b₁ :: rest) := by
  generalize hmask : (if b₁ &&& 0x80 != 0 then 4 else 0) = mask
  have hmask' : ∀ head : Nat, (if b₁ &&& 0x80 != 0 then (head : Int) + 4 else head) =
      ((head + mask : Nat) : Int) := by
    intro head
    rw [← hmask]
    split <;> push_cast <;> omega
  have hle : mask ≤ 4 := by
    rw [← hmask]
    split <;> omega
  have hne : ¬ (127 : UInt8) = 126 := by decide
  by_cases h126 : b₁ &&& 0x7F = 126
  · by_cases hlen : 4 ≤ (b₀ :: b₁ :: rest).length
    · have hlt := beUint_lt (((b₀ :: b₁ :: rest).drop 2).take 2)
      have htwo : (((b₀ :: b₁ :: rest).drop 2).take 2).length ≤ 2 := List.length_take_le _ _
      have hpow := Nat.pow_le_pow_right (show 0 < 256 by decide) htwo
      refine .length (beUint (((b₀ :: b₁ :: rest).drop 2).take 2)) 4 (4 + mask) ?_ ?_ ?_
        (hmask' 4) (by omega)
      · simp only [announced, h126, hlen, if_true, hmask]
      · omega
      · simp only [bodyLength, h126, hlen]
        rfl
    · exact .incomplete (by simp only [announced, h126, hlen, if_true, if_false])
        (by simp only [bodyLength, h126, hlen, if_true, if_false])
  · by_cases h127 : b₁ &&& 0x7F = 127
    · by_cases hlen : 10 ≤ (b₀ :: b₁ :: rest).length
      · have hlt := beUint_lt (((b₀ :: b₁ :: rest).drop 2).take 8)
        have height : (((b₀ :: b₁ :: rest).drop 2).take 8).length ≤ 8 := List.length_take_le _ _
        have hpow := Nat.pow_le_pow_right (show 0 < 256 by decide) height
        have hsome : announced (b₀ :: b₁ :: rest) = some (b₀ &&& 0xF,
            beUint (((b₀ :: b₁ :: rest).drop 2).take 8), 10 + mask) := by
          simp only [announced, hne, h127, hlen, if_true, if_false, hmask]
        have hbody : bodyLength (b₁ &&& 0x7F) (b₀ :: b₁ :: rest) =
            if wrap64 (beUint (((b₀ :: b₁ :: rest).drop 2).take 8)) < 0 then
              .error .invalidFragmentMessage
            else .ok (wrap64 (beUint (((b₀ :: b₁ :: rest).drop 2).take 8)), 10) := by
          simp only [bodyLength, hne, h127, hlen, if_true, if_false]
        generalize beUint (((b₀ :: b₁ :: rest).drop 2).take 8) = len at hlt hsome hbody
        have hsign := wrap64_nat_neg_iff (n := len) (by omega)
        by_cases hge : 2 ^ 63 ≤ len
        · exact .negative len _ hsome hge (by rw [hbody, if_pos (hsign.2 hge)])
        · refine .length len 10 _ hsome (by omega) ?_ (hmask' 10) (by omega)
          rw [hbody, wrap64_of_lt (by omega) (by omega)]
          rfl
      · exact .incomplete (by simp only [announced, hne, h127, hlen, if_true, if_false])
          (by simp only [bodyLength, hne, h127, hlen, if_true, if_false])
    · refine .length (b₁ &&& 0x7F).toNat 2 (2 + mask) ?_ ?_ ?_ (hmask' 2) (by omega)
      · simp only [announced, h126, h127, if_false, hmask]
      · have hlt := (b₁ &&& 0x7F).toNat_lt
        omega
      · simp only [bodyLength, h126, h127]
        rfl

/-! ## Heads -/

theorem wrap64_eq_iff {n : Int} (h₀ : -2 ^ 63 ≤ n) : wrap64 n = n ↔ n < 2 ^ 63 := by
  unfold wrap64
  omega

variable {rest : Bytes} {b₀ b₁ : UInt8}

theorem frameTrace_of_ok {bodyLen headLen : Int}
    (hlen : bodyLength (b₁ &&& 0x7F) (b₀ :: b₁ :: rest) = .ok (bodyLen, headLen)) :
    frameTrace o a (b₀ :: b₁ :: rest) =
      lengthTrace o a b₀ b₁ bodyLen headLen (b₀ :: b₁ :: rest) := by
  simp only [frameTrace, hlen]

theorem frameTrace_of_error {e : Err}
    (hlen : bodyLength (b₁ &&& 0x7F) (b₀ :: b₁ :: rest) = .error e) :
    frameTrace o a (b₀ :: b₁ :: rest) = (.empty, .error e) := by
  simp only [frameTrace, hlen]

theorem incomplete_right (ha : a.len < 2 ^ 63) (hnone : announced (b₀ :: b₁ :: rest) = none)
    (hlen : bodyLength (b₁ &&& 0x7F) (b₀ :: b₁ :: rest) = .ok (-1, 2)) :
    LengthsRight o a (b₀ :: b₁ :: rest) := by
  have hsum : wrap64 (a.len + -1) = a.len + -1 := wrap64_of_lt (by omega) (by omega)
  have htrace : (frameTrace o a (b₀ :: b₁ :: rest)).1 =
      ⟨[(wrap64 (a.len + -1), a.len + -1)], []⟩ := by
    rw [frameTrace_of_ok hlen]
    unfold lengthTrace
    dsimp only
    split
    · rfl
    · split
      · rfl
      · rw [if_neg (by decide)]
  refine ⟨?_, ?_, ?_⟩
  · rw [htrace]
    simpa using hsum
  · rw [htrace]
    simp
  · intro _ opcode len headLen hsome
    rw [hnone] at hsome
    cases hsome

/-- A length that is no `int64`: the only sum that could go wrong is not evaluated, but the frame is
not turned away for its length. -/
theorem negative_right_iff {len headLen : Nat} (hge : 2 ^ 63 ≤ len)
    (hsome : announced (b₀ :: b₁ :: rest) = some (b₀ &&& 0xF, len, headLen))
    (hlen : bodyLength (b₁ &&& 0x7F) (b₀ :: b₁ :: rest) = .error .invalidFragmentMessage) :
    LengthsRight o a (b₀ :: b₁ :: rest) ↔
      o.messageLengthLimit ≤ 0 ∨ isDataFrame (b₀ &&& 0xF) = false := by
  have htrace := frameTrace_of_error (o := o) (a := a) hlen
  have hnext : nextFrame o a (b₀ :: b₁ :: rest) = .error .invalidFragmentMessage := by
    rw [← frameTrace_snd, htrace]
  have hlimit := o.messageLengthLimit_lt
  constructor
  · intro h
    by_contra hcon
    rw [not_or, Bool.not_eq_false] at hcon
    have hlarge := h.limit (Int.not_le.1 hcon.1) _ _ _ hsome hcon.2 (by omega)
    rw [hnext] at hlarge
    cases hlarge
  · intro h
    refine ⟨?_, ?_, ?_⟩
    · rw [htrace]
      simp [LengthTrace.empty]
    · rw [htrace]
      simp [LengthTrace.empty]
    · intro hpos opcode len' headLen' hsome' hdata _
      rw [hsome] at hsome'
      cases hsome'
      rcases h with hle | hnot
      · omega
      · rw [hnot] at hdata
        cases hdata

theorem mem_lengthTrace (b₀ b₁ : UInt8) (bodyLen headLen : Int) (data : Bytes) :
    (wrap64 (a.len + bodyLen), a.len + bodyLen) ∈
      (lengthTrace o a b₀ b₁ bodyLen headLen data).1.sums := by
  unfold lengthTrace
  dsimp only
  split
  · simp
  · split
    · simp
    · split
      · simp [takeTrace]
      · simp

theorem limit_of_tooLarge {len head headLen : Nat}
    (hsome : announced (b₀ :: b₁ :: rest) = some (b₀ &&& 0xF, len, headLen))
    (hlen : bodyLength (b₁ &&& 0x7F) (b₀ :: b₁ :: rest) = .ok ((len : Int), (head : Int)))
    (hsum : a.len + len < 2 ^ 63) (hpos : 0 < o.messageLengthLimit) (opcode : MessageType)
    (len' headLen' : Nat) (hsome' : announced (b₀ :: b₁ :: rest) = some (opcode, len', headLen'))
    (_ : isDataFrame opcode = true) (hlong : o.messageLengthLimit < (a.len : Int) + len') :
    nextFrame o a (b₀ :: b₁ :: rest) = .error .messageTooLarge := by
  rw [hsome] at hsome'
  cases hsome'
  have heq : wrap64 ((a.len : Int) + len) = a.len + len := wrap64_of_lt (by omega) (by omega)
  have hlarge : isMessageTooLarge o ((a.len : Int) + len) = true := by
    simp only [isMessageTooLarge, Bool.and_eq_true, decide_eq_true_eq]
    exact ⟨hpos, hlong⟩
  rw [← frameTrace_snd, frameTrace_of_ok hlen, lengthTrace, heq, if_pos hlarge]

theorem length_right_iff {len head headLen : Nat}
    (hsome : announced (b₀ :: b₁ :: rest) = some (b₀ &&& 0xF, len, headLen))
    (hlen : bodyLength (b₁ &&& 0x7F) (b₀ :: b₁ :: rest) = .ok ((len : Int), (head : Int)))
    (hhead : (if b₁ &&& 0x80 != 0 then (head : Int) + 4 else head) = headLen) :
    LengthsRight o a (b₀ :: b₁ :: rest) ↔
      a.len + len < 2 ^ 63 ∧
        (isMessageTooLarge o (a.len + len : Nat) = true ∨
          maxControlFramePayloadSize < len ∧ isControl (b₀ &&& 0xF) = true ∨
            headLen + len < 2 ^ 63) := by
  by_cases hsum : a.len + len < 2 ^ 63
  swap
  · refine iff_of_false ?_ fun h => hsum h.1
    intro h
    have hmem := h.sums _ (by rw [frameTrace_of_ok hlen]; exact mem_lengthTrace b₀ b₁ len head _)
    have hlt := (wrap64_eq_iff (by omega)).1 hmem
    omega
  have heq : wrap64 ((a.len : Int) + len) = a.len + len := wrap64_of_lt (by omega) (by omega)
  have htrace : (frameTrace o a (b₀ :: b₁ :: rest)).1 =
      if isMessageTooLarge o (a.len + len : Nat) = true ∨
          maxControlFramePayloadSize < len ∧ isControl (b₀ &&& 0xF) = true then
        ⟨[((a.len : Int) + len, (a.len : Int) + len)], []⟩
      else takeTrace [((a.len : Int) + len, (a.len : Int) + len)] b₁ head len
        (b₀ :: b₁ :: rest) := by
    rw [frameTrace_of_ok hlen, lengthTrace, heq]
    push_cast
    by_cases hlarge : isMessageTooLarge o ((a.len : Int) + len) = true
    · rw [if_pos hlarge, if_pos (.inl hlarge)]
    · rw [if_neg hlarge]
      by_cases hcontrol : maxControlFramePayloadSize < len ∧ isControl (b₀ &&& 0xF) = true
      · rw [if_pos (by simpa using hcontrol), if_pos (.inr hcontrol)]
      · rw [if_neg (by simpa using hcontrol), if_pos (by omega),
          if_neg (not_or.2 ⟨hlarge, hcontrol⟩)]
  by_cases haway : isMessageTooLarge o (a.len + len : Nat) = true ∨
      maxControlFramePayloadSize < len ∧ isControl (b₀ &&& 0xF) = true
  · -- the frame is turned away
    rw [if_pos haway] at htrace
    refine iff_of_true ⟨?_, ?_, limit_of_tooLarge hsome hlen hsum⟩ ⟨hsum, haway.imp_right .inl⟩
    · rw [htrace]
      simp
    · rw [htrace]
      simp
  · rw [if_neg haway, takeTrace, hhead] at htrace
    have hiff : (a.len + len < 2 ^ 63 ∧ (isMessageTooLarge o (a.len + len : Nat) = true ∨
        maxControlFramePayloadSize < len ∧ isControl (b₀ &&& 0xF) = true ∨
          headLen + len < 2 ^ 63)) ↔
        headLen + len < 2 ^ 63 := by
      constructor
      · rintro ⟨-, hlarge | hcontrol | hshort⟩
        · exact absurd (.inl hlarge) haway
        · exact absurd (.inr hcontrol) haway
        · exact hshort
      · exact fun hshort => ⟨hsum, .inr (.inr hshort)⟩
    rw [hiff]
    have hwrap := wrap64_eq_iff (n := (headLen : Int) + len) (by omega)
    constructor
    · intro h
      have hmem := h.sums (wrap64 ((headLen : Int) + len), (headLen : Int) + len)
        (by rw [htrace]; simp)
      omega
    · intro hshort
      rw [hwrap.2 (by omega)] at htrace
      refine ⟨?_, ?_, limit_of_tooLarge hsome hlen hsum⟩
      · rw [htrace]
        simp
      · rw [htrace]
        intro p hp
        split at hp
        · next hle =>
          rw [List.mem_singleton] at hp
          subst hp
          exact ⟨by omega, by omega, hle⟩
        · cases hp

/-- The sums of `nextFrame` are the mathematical ones, its slice is within the cache, and a data
frame that makes the message too long is turned away as such, exactly for the heads that are
`Representable`. -/
theorem frame_lengths_iff (o : Options) (a : Assembly) (data : Bytes) (ha : a.len < 2 ^ 63) :
    LengthsRight o a data ↔ Representable o a data := by
  match data with
  | [] => exact iff_of_true ⟨by simp [frameTrace, LengthTrace.empty],
      by simp [frameTrace, LengthTrace.empty], by simp [announced]⟩ trivial
  | [_] => exact iff_of_true ⟨by simp [frameTrace, LengthTrace.empty],
      by simp [frameTrace, LengthTrace.empty], by simp [announced]⟩ trivial
  | b₀ :: b₁ :: rest =>
    cases headCase b₀ b₁ rest with
    | incomplete hnone hlen =>
      refine iff_of_true (incomplete_right ha hnone hlen) ?_
      simp only [Representable, hnone]
    | negative len headLen hsome hge hlen =>
      rw [negative_right_iff hge hsome hlen]
      simp only [Representable, hsome, hge, if_true]
    | length len head headLen hsome hlt hlen hhead _ =>
      rw [length_right_iff hsome hlen hhead]
      simp only [Representable, hsome, Nat.not_le.2 hlt, if_false]

/-- A masked head that asks for more than the limit allows. -/
theorem frame_lengths_iff_limited :
    LengthsRight { plainOptions with messageLengthLimit := 4, messageLengthLimit_lt := by decide }
      newConn.toAssembly [0x81, 0x85] :=
  (frame_lengths_iff _ newConn.toAssembly [0x81, 0x85] (by decide)).2 (by decide)

/-- One byte has been put together, and a frame announces `2^63 - 1` more: both sums become
negative, and the slice is not one.  A frame that announces `2^63` bytes is turned away, but not as
too large. -/
theorem frame_length_wraps :
    let o : Options :=
      { plainOptions with messageLengthLimit := 100, messageLengthLimit_lt := by decide }
    let a : Assembly := ⟨true, false, 1, some [0x61]⟩
    (frameTrace o a [0x80, 0x7F, 0x7F, 0xFF, 0xFF, 0xFF, 0xFF, 0xFF, 0xFF, 0xFF]).1 =
        ⟨[(-2 ^ 63, 2 ^ 63), (9 - 2 ^ 63, 2 ^ 63 + 9)], [(10, 9 - 2 ^ 63)]⟩ ∧
      nextFrame o newConn.toAssembly [0x81, 0x7F, 0x80, 0, 0, 0, 0, 0, 0, 0] =
        .error .invalidFragmentMessage :=
  ⟨by decide +kernel, rfl⟩

end Nbio.Websocket
