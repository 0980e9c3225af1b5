import Nbio.Http.Invariant
import Nbio.Lib.Scanner

/-!
# The parser as a scanner of the byte stream

The loop of `Parse` works with two indices into the data of one call.  Here the same
parser is a scanner (`Nbio.Lib.Scanner`) over the stream: its configuration is the fields,
the calls made so far and the bytes `kept` from `start` up to the current one, so that it
no longer matters which call the bytes came with.  `loop_eq` and `parse_eq` connect the
two: a call of `Parse` is a run of the scanner over the cached bytes and the new data, and
what the scanner keeps or has not consumed is what `Parse` caches.
-/

namespace Nbio.Http

open Nbio.Go Nbio.Lib List

structure Cfg where
  p : Fields
  log : Log
  kept : Bytes

/-- An error that ends the stream; `none` is a panic. -/
structure Stop where
  p : Fields
  log : Log
  err : Option Err

def Start.kept (s : Start) (kept : Bytes) (c : UInt8) : Bytes :=
  match s with
  | .keep => kept ++ [c]
  | .here => [c]
  | .after => []

variable {xs rest : Bytes} {n : Nat} {k' : Cfg} {c : UInt8}

namespace Cfg

variable (proc : Processor) (k : Cfg)

/-- The verdict of a body state that waits for `cl` bytes. -/
def onBody (cl : Int) (input : Bytes) : Verdict Cfg Stop :=
  if 0 < cl ∧ cl ≤ input.length then
    let body := input.take cl.toNat
    match proc.result (k.log ++ [.onBody body]) with
    | some message =>
      .stop { p := k.p, log := k.log ++ [.onBody body], err := some (.processor message) }
    | none =>
      let e := endBody proc k.p (k.log ++ [.onBody body])
      .step (cl.toNat - 1) { p := e.1, log := e.2, kept := [] }
  else .need

def onByte (c : UInt8) : Verdict Cfg Stop :=
  match Http.onByte proc k.p k.log (some k.kept) c with
  | .go p log s => .step 0 { p, log, kept := s.kept k.kept c }
  | .fail p log e => .stop { p, log, err := some e }
  | .panic p log => .stop { p, log, err := none }

/-- What the parser does with the input it can see.  An upgraded parser leaves all input
to its `ParserCloser`. -/
def next (input : Bytes) : Verdict Cfg Stop :=
  match input with
  | [] => .need
  | c :: _ =>
    if k.p.parserCloser then .need
    else
      match k.p.bodyLen with
      | some cl => k.onBody proc cl input
      | none => k.onByte proc c

variable {proc k}

theorem next_body {cl : Int} (hpc : k.p.parserCloser = false) (hb : k.p.bodyLen = some cl) :
    k.next proc (c :: rest) = k.onBody proc cl (c :: rest) := by
  simp only [next, hpc, hb, Bool.false_eq_true, ↓reduceIte]

theorem next_byte (hpc : k.p.parserCloser = false) (hb : k.p.bodyLen = none) :
    k.next proc (c :: rest) = k.onByte proc c := by
  simp only [next, hpc, hb, Bool.false_eq_true, ↓reduceIte]

theorem next_closer {input : Bytes} (hpc : k.p.parserCloser = true) :
    k.next proc input = .need := by
  cases input with
  | nil => rfl
  | cons c rest => simp only [next, hpc, ↓reduceIte]

theorem onBody_of_le {cl : Int} {input : Bytes} (h : 0 < cl ∧ cl ≤ input.length) :
    k.onBody proc cl input =
      match proc.result (k.log ++ [.onBody (input.take cl.toNat)]) with
      | some message =>
        .stop ⟨k.p, k.log ++ [.onBody (input.take cl.toNat)], some (.processor message)⟩
      | none =>
        .step (cl.toNat - 1) ⟨(endBody proc k.p (k.log ++ [.onBody (input.take cl.toNat)])).1,
          (endBody proc k.p (k.log ++ [.onBody (input.take cl.toNat)])).2, []⟩ := by
  unfold onBody
  rw [if_pos h]

theorem onBody_of_not_le {cl : Int} {input : Bytes} (h : ¬ (0 < cl ∧ cl ≤ input.length)) :
    k.onBody proc cl input = .need := by
  unfold onBody
  rw [if_neg h]

theorem next_cases (h : k.next proc xs = .step n k') :
    k.p.parserCloser = false ∧
    ((∃ cl, k.p.bodyLen = some cl ∧ 0 < cl ∧ cl ≤ xs.length ∧ n + 1 = cl.toNat ∧
        k'.p = (endBody proc k.p (k.log ++ [.onBody (xs.take cl.toNat)])).1 ∧
        k'.log = (endBody proc k.p (k.log ++ [.onBody (xs.take cl.toNat)])).2 ∧ k'.kept = []) ∨
      ∃ c rest s, xs = c :: rest ∧ k.p.bodyLen = none ∧ n = 0 ∧
        Http.onByte proc k.p k.log (some k.kept) c = .go k'.p k'.log s ∧
        k'.kept = s.kept k.kept c) := by
  cases xs with
  | nil => cases h
  | cons c rest =>
    cases hpc : k.p.parserCloser with
    | true => rw [next_closer hpc] at h; cases h
    | false =>
      refine ⟨rfl, ?_⟩
      cases hb : k.p.bodyLen with
      | some cl =>
        rw [next_body hpc hb] at h
        by_cases hcl : 0 < cl ∧ cl ≤ (c :: rest).length
        · rw [onBody_of_le hcl] at h
          split at h
          · cases h
          · cases h
            exact .inl ⟨cl, rfl, hcl.1, hcl.2, by omega, rfl, rfl, rfl⟩
        · rw [onBody_of_not_le hcl] at h
          cases h
      | none =>
        rw [next_byte hpc hb, onByte] at h
        split at h
        · next p log s hgo =>
          cases h
          exact .inr ⟨c, rest, s, rfl, rfl, rfl, hgo, rfl⟩
        · cases h
        · cases h

theorem stop_cases {e : Stop} (h : k.next proc xs = .stop e) :
    (∃ cl message, k.p.bodyLen = some cl ∧
      e = ⟨k.p, k.log ++ [.onBody (xs.take cl.toNat)], some (.processor message)⟩) ∨
    ∃ c p log, k.p.bodyLen = none ∧
      ((∃ err, Http.onByte proc k.p k.log (some k.kept) c = .fail p log err ∧
        e = ⟨p, log, some err⟩) ∨
        Http.onByte proc k.p k.log (some k.kept) c = .panic p log ∧ e = ⟨p, log, none⟩) := by
  cases xs with
  | nil => cases h
  | cons c rest =>
    cases hpc : k.p.parserCloser with
    | true => rw [next_closer hpc] at h; cases h
    | false =>
      cases hb : k.p.bodyLen with
      | some cl =>
        rw [next_body hpc hb] at h
        by_cases hcl : 0 < cl ∧ cl ≤ (c :: rest).length
        · rw [onBody_of_le hcl] at h
          split at h
          · next message _ =>
            cases h
            exact .inl ⟨cl, message, rfl, rfl⟩
          · cases h
        · rw [onBody_of_not_le hcl] at h
          cases h
      | none =>
        rw [next_byte hpc hb, onByte] at h
        split at h
        · cases h
        · next p log err hfail =>
          cases h
          exact .inr ⟨c, p, log, rfl, .inl ⟨err, hfail, rfl⟩⟩
        · next p log hpanic =>
          cases h
          exact .inr ⟨c, p, log, rfl, .inr ⟨hpanic, rfl⟩⟩

theorem next_within (h : k.next proc xs = .step n k') :
    n < xs.length := by
  obtain ⟨-, ⟨cl, -, -, hle, hn, -, -, -⟩ | ⟨c, rest, s, rfl, -, rfl, -, -⟩⟩ := next_cases h
  · omega
  · exact Nat.zero_lt_succ _

theorem next_stable (ys : Bytes) (h : k.next proc xs ≠ .need) :
    k.next proc (xs ++ ys) = k.next proc xs := by
  cases xs with
  | nil => exact absurd rfl h
  | cons c rest =>
    cases hpc : k.p.parserCloser with
    | true => exact absurd (next_closer hpc) h
    | false =>
      cases hb : k.p.bodyLen with
      | none => rw [cons_append, next_byte hpc hb, next_byte hpc hb]
      | some cl =>
        rw [next_body hpc hb] at h
        rw [cons_append, next_body hpc hb, next_body hpc hb]
        by_cases hcl : 0 < cl ∧ cl ≤ (c :: rest).length
        · have hle : cl ≤ (c :: (rest ++ ys)).length := by
            simp only [length_cons, length_append] at hcl ⊢
            omega
          have htake : (c :: (rest ++ ys)).take cl.toNat = (c :: rest).take cl.toNat := by
            rw [← cons_append, take_append_of_le_length (by omega)]
          rw [onBody_of_le hcl, onBody_of_le ⟨hcl.1, hle⟩, htake]
        · exact absurd (onBody_of_not_le hcl) h

end Cfg

def scanner (proc : Processor) : Scanner UInt8 Cfg Stop where
  next := fun k => k.next proc
  Valid := fun _ => True
  valid := fun _ _ => trivial
  within := Cfg.next_within
  stable := fun ys _ h => Cfg.next_stable ys h

/-! ## The invariant of a configuration -/

/-- The fields are well formed, a body state waits for a body of positive length of which
nothing has been consumed, and nothing is kept of a message that has ended. -/
structure Cfg.WF (k : Cfg) : Prop where
  inv : k.p.Inv
  live : k.p.state ≠ .close
  body : ∀ cl, k.p.bodyLen = some cl → 0 < cl ∧ k.kept = []
  start : k.p.state.isStart = true → k.kept = []

theorem State.isByte_of_bodyLen {p : Fields} (hc : p.state ≠ .close) (h : p.bodyLen = none) :
    p.state.isByte = true := by
  unfold Fields.bodyLen at h
  cases hst : p.state <;> simp_all [State.isByte]

theorem Fields.bodyLen_start {p : Fields} (h : p.state = startState p.isClient) :
    p.bodyLen = none := by
  have hstart : ∀ b : Bool, (startState b).isByte = true := by decide
  exact Fields.bodyLen_of_isByte (h ▸ hstart _)

theorem endBody_spec {proc : Processor} {p : Fields} {log : Log} (hp : p.Inv) {cl : Int}
    (hb : p.bodyLen = some cl) : ByteSpec proc p (endBody proc p log).1 .after := by
  obtain ⟨proto, statusCode, status, headerKey, headerValue, header, trailer, contentLength,
    chunkSize, state, chunked, isClient, headerExists, parserCloser⟩ := p
  cases state with
  | bodyContentLength => exact .message (hp.at rfl)
  | bodyChunkData => exact .next (hp.at rfl)
  | _ => cases hb

theorem Cfg.next_spec {proc : Processor} {k : Cfg} (hk : k.WF)
    (h : (scanner proc).next k xs = .step n k') :
    ∃ s, ByteSpec proc k.p k'.p s ∧ (s = .after → k'.kept = []) := by
  obtain ⟨-, ⟨cl, hb, -, -, -, hp, -, hkept⟩ | ⟨c, rest, s, -, hb, -, hgo, hkept⟩⟩ := next_cases h
  · rw [hp]
    exact ⟨.after, endBody_spec hk.inv hb, fun _ => hkept⟩
  · refine ⟨s, (onByte_spec hk.inv (State.isByte_of_bodyLen hk.live hb)).elim hgo, ?_⟩
    rintro rfl
    exact hkept

theorem Cfg.wf_step {proc : Processor} {k : Cfg} (hk : k.WF)
    (h : (scanner proc).next k xs = .step n k') : k'.WF := by
  obtain ⟨s, hs, hkept⟩ := next_spec hk h
  refine ⟨hs.inv, hs.live, fun cl hb => ?_, fun hst => hkept (hs.enterStart hst)⟩
  obtain ⟨hpos, hafter⟩ := hs.enterBody cl hb
  exact ⟨hpos, hkept hafter⟩

theorem Cfg.suffix_step {proc : Processor} {k : Cfg} (hk : k.WF)
    (h : (scanner proc).next k xs = .step n k') :
    k'.kept ++ xs.drop (n + 1) <:+ k.kept ++ xs := by
  obtain ⟨-, ⟨cl, hb, -, -, -, -, -, hkept⟩ | ⟨c, rest, s, rfl, -, rfl, -, hkept⟩⟩ := next_cases h
  · rw [hkept, (hk.body cl hb).2]
    exact drop_suffix _ _
  · rw [hkept]
    cases s with
    | keep => simp [Start.kept]
    | here => exact suffix_append _ _
    | after => exact (suffix_cons c rest).trans (suffix_append _ _)

theorem Cfg.next_stop {proc : Processor} {k : Cfg} {e : Stop} (hk : k.WF)
    (h : (scanner proc).next k xs = .stop e) : e.err ≠ none := by
  obtain ⟨cl, message, -, rfl⟩ | ⟨c, p, log, hb, ⟨err, -, rfl⟩ | ⟨hpanic, -⟩⟩ := stop_cases h
  · exact Option.some_ne_none _
  · exact Option.some_ne_none _
  · have hs : (Http.onByte proc k.p k.log (some k.kept) c).Goes (ByteSpec proc k.p) :=
      onByte_spec hk.inv (State.isByte_of_bodyLen hk.live hb)
    rw [hpanic] at hs
    exact False.elim hs

/-! ## The loop is a run of the scanner -/

/-- The indices of the loop point into the data where the scanner is: the bytes from `start` on are
those the scanner keeps and those it has still to read, and `i` is the first of the latter. -/
structure Aligned (data : Bytes) (start i : Nat) (k : Cfg) (input : Bytes) : Prop where
  split : data.drop start = k.kept ++ input
  bound : start ≤ data.length
  byte : k.p.bodyLen = none → i = start + k.kept.length
  body : k.p.bodyLen ≠ none → i = start ∨ start ≤ i ∧ i < data.length

namespace Aligned

variable {data : Bytes} {start i : Nat} {k : Cfg} {input : Bytes}

variable (h : Aligned data start i k input)

include h

theorem length :
    data.length = start + k.kept.length + input.length := by
  have hl := congrArg List.length h.split
  rw [length_drop, length_append] at hl
  have := h.bound
  omega

theorem start_eq :
    start = data.length - (k.kept.length + input.length) := by
  have := h.length
  omega

theorem lt_iff (hk : k.WF) :
    i < data.length ↔ input ≠ [] := by
  have hl := h.length
  rw [← length_pos_iff]
  cases hb : k.p.bodyLen with
  | none =>
    have := h.byte hb
    omega
  | some cl =>
    have hkept : k.kept.length = 0 := by rw [(hk.body cl hb).2]; rfl
    have := h.body (by rw [hb]; nofun)
    omega

/-- In a byte state the slice `data[start:i]` is what the scanner keeps. -/
theorem slice_eq (hb : k.p.bodyLen = none) :
    slice data start i = some k.kept := by
  have hl := h.length
  have hi := h.byte hb
  rw [Go.slice_eq (by omega) (by omega), h.split, show i - start = k.kept.length by omega,
    take_left]

theorem drop_eq (hb : k.p.bodyLen = none) :
    data.drop i = input := by
  rw [h.byte hb, ← drop_drop, h.split, drop_left]

end Aligned

/-- How the loop is left, from the outcome of the scanner's run. -/
def loopEnd (data : Bytes) : Except Stop (Cfg × Bytes) → LoopEnd
  | .error ⟨p, log, some e⟩ => .fail p log e
  | .error ⟨p, log, none⟩ => .panic p log
  | .ok (k, left) =>
    let start := data.length - (k.kept.length + left.length)
    if k.p.parserCloser ∧ left ≠ [] then .upgrade k.p (k.log ++ [.clean]) start
    else .exit k.p k.log start

theorem Aligned.after_byte {proc : Processor} {data : Bytes} {start i : Nat} {k : Cfg} {p : Fields}
    {log : Log} {s : Start} (h : Aligned data start i k (c :: rest)) (hb : k.p.bodyLen = none)
    (hs : ByteSpec proc k.p p s) :
    Aligned data (s.apply start i) (i + 1) ⟨p, log, s.kept k.kept c⟩ rest := by
  have hi := h.byte hb
  have hl := h.length
  have hd := h.drop_eq hb
  rw [length_cons] at hl
  cases s with
  | keep =>
    refine ⟨?_, h.bound, fun _ => ?_, fun hb' => ?_⟩
    · simpa [Start.apply, Start.kept] using h.split
    · simp only [Start.apply, Start.kept, length_append, length_singleton]
      omega
    · obtain ⟨cl, hcl⟩ := Option.ne_none_iff_exists'.1 hb'
      cases (hs.enterBody cl hcl).2
  | here =>
    refine ⟨by simpa [Start.apply, Start.kept] using hd, ?_, fun _ => ?_, fun hb' => ?_⟩
    · simp only [Start.apply]
      omega
    · rfl
    · obtain ⟨cl, hcl⟩ := Option.ne_none_iff_exists'.1 hb'
      cases (hs.enterBody cl hcl).2
  | after =>
    refine ⟨?_, ?_, fun _ => rfl, fun _ => .inl rfl⟩
    · have hd' : data.drop (i + 1) = (data.drop i).drop 1 := drop_drop.symm
      simp only [Start.apply, hd', hd]
      rfl
    · simp only [Start.apply]
      omega

theorem Aligned.after_body {data : Bytes} {start i : Nat} {k : Cfg} {input : Bytes} {p : Fields}
    {log : Log} (h : Aligned data start i k input) (hkept : k.kept = []) (hn : n ≤ input.length) :
    Aligned data (start + n) (start + n) ⟨p, log, []⟩ (input.drop n) := by
  have hl := h.length
  have hs := h.split
  rw [hkept] at hl hs
  refine ⟨?_, ?_, fun _ => rfl, fun _ => .inl rfl⟩
  · rw [← drop_drop, hs]
    rfl
  · omega

theorem Aligned.loopEnd_ok {data : Bytes} {start i : Nat} {k : Cfg} {input : Bytes}
    (h : Aligned data start i k input) :
    loopEnd data (.ok (k, input)) =
      if k.p.parserCloser ∧ input ≠ [] then .upgrade k.p (k.log ++ [.clean]) start
      else .exit k.p k.log start := by
  rw [loopEnd, ← h.start_eq]

/-- An iteration of the loop does what a verdict of the scanner at `k` says. -/
def Iter.Follows (it : Iter) (data : Bytes) (k : Cfg) (input : Bytes) :
    Verdict Cfg Stop → Prop
  | .need => it = .leave (loopEnd data (.ok (k, input)))
  | .stop e => it = .leave (loopEnd data (.error e))
  | .step n k' => ∃ start i, it = .next k'.p k'.log start i ∧
      Aligned data start i k' (input.drop (n + 1))

theorem onBody_follows {proc : Processor} {data : Bytes} {start i : Nat} {k : Cfg}
    {input : Bytes} {cl : Int} (hal : Aligned data start i k input) (hk : k.WF)
    (hpc : k.p.parserCloser = false) (hb : k.p.bodyLen = some cl) :
    (onBody proc data k.p k.log start cl).Follows data k input (k.onBody proc cl input) := by
  obtain ⟨hpos, hkept⟩ := hk.body cl hb
  have hl := hal.length
  rw [hkept, length_nil] at hl
  unfold onBody
  by_cases hcl : cl ≤ input.length
  · have hbody : slice data start (start + cl.toNat) = some (input.take cl.toNat) := by
      rw [Go.slice_eq (by omega) (by omega), hal.split, hkept, Nat.add_sub_cancel_left]
      rfl
    rw [Cfg.onBody_of_le ⟨hpos, hcl⟩]
    simp only [if_pos (show cl ≤ (data.length : Int) - start by omega), hbody,
      if_neg (show ¬ cl < 0 by omega)]
    cases proc.result (k.log ++ [.onBody (input.take cl.toNat)]) with
    | some message => rfl
    | none =>
      refine ⟨_, _, rfl, ?_⟩
      rw [show cl.toNat - 1 + 1 = cl.toNat by omega]
      exact hal.after_body hkept (by omega)
  · have hleft : ¬ cl ≤ (data.length : Int) - start := by omega
    have hno : ¬ (k.p.parserCloser = true ∧ input ≠ []) := by
      rintro ⟨hcloser, -⟩
      cases hpc.symm.trans hcloser
    rw [Cfg.onBody_of_not_le (fun h => hcl h.2), Iter.Follows, hal.loopEnd_ok, if_neg hno]
    exact if_neg hleft

theorem iterate_follows {proc : Processor} {data : Bytes} {start i : Nat} {k : Cfg}
    (hal : Aligned data start i k (c :: rest)) (hk : k.WF) (hi : i < data.length) :
    (iterate proc data k.p k.log start i data[i]).Follows data k (c :: rest)
      (k.next proc (c :: rest)) := by
  unfold iterate
  cases hpc : k.p.parserCloser with
  | true =>
    have hup : k.p.parserCloser = true ∧ c :: rest ≠ [] := ⟨hpc, cons_ne_nil c rest⟩
    rw [Cfg.next_closer hpc, Iter.Follows, hal.loopEnd_ok, if_pos hup]
    rfl
  | false =>
    cases hb : k.p.bodyLen with
    | some cl =>
      rw [Cfg.next_body hpc hb]
      exact onBody_follows hal hk hpc hb
    | none =>
      have hc : data[i] = c := by
        have hd := hal.drop_eq hb
        rw [drop_eq_getElem_cons hi] at hd
        exact (List.cons.inj hd).1
      have hs : (Http.onByte proc k.p k.log (some k.kept) c).Goes (ByteSpec proc k.p) :=
        onByte_spec hk.inv (State.isByte_of_bodyLen hk.live hb)
      simp only [Cfg.next_byte hpc hb, Cfg.onByte, hal.slice_eq hb, hc]
      cases ha : Http.onByte proc k.p k.log (some k.kept) c with
      | panic p log => rfl
      | fail p log e => rfl
      | go p log s =>
        rw [ha] at hs
        exact ⟨_, _, rfl, hal.after_byte hb hs⟩

/-- The loop does what the scanner does from where its indices point. -/
theorem loop_eq {proc : Processor} {data : Bytes} {fuel start i : Nat} {k : Cfg}
    {input : Bytes} (hal : Aligned data start i k input) (hk : k.WF)
    (hfuel : input.length < fuel) :
    loop proc data fuel k.p k.log start i = loopEnd data ((scanner proc).run k input) := by
  -- by induction on the iterations left: each consumes input of the scanner
  induction fuel generalizing start i k input with
  | zero => exact absurd hfuel (Nat.not_lt_zero _)
  | succ fuel ih =>
    rw [loop]
    cases input with
    | nil =>
      have hi : ¬ i < data.length := fun h => (hal.lt_iff hk).1 h rfl
      rw [dif_neg hi, Scanner.run_nil, hal.loopEnd_ok, if_neg (fun h => h.2 rfl)]
    | cons c rest =>
      have hi : i < data.length := (hal.lt_iff hk).2 nofun
      have hit : (iterate proc data k.p k.log start i data[i]).Follows data k (c :: rest)
          ((scanner proc).next k (c :: rest)) := iterate_follows hal hk hi
      rw [dif_pos hi]
      cases hn : (scanner proc).next k (c :: rest) with
      | need =>
        rw [hn] at hit
        rw [hit, (scanner proc).run_need hn]
      | stop e =>
        rw [hn] at hit
        rw [hit, (scanner proc).run_stop (cons_ne_nil c rest) hn]
      | step n k' =>
        rw [hn] at hit
        obtain ⟨start', i', hit, hal'⟩ := hit
        rw [hit, (scanner proc).run_step hn]
        refine ih hal' (Cfg.wf_step hk hn) ?_
        simp only [length_drop, length_cons] at hfuel ⊢
        omega

/-! ## A call of `Parse` is a run of the scanner -/

/-- What a parser holds between two calls: fields as they are after a byte, and a cache
that is nil rather than empty. -/
structure Parser.WF (p : Parser) : Prop where
  inv : p.toFields.Inv
  live : p.state ≠ .close
  body : ∀ cl, p.toFields.bodyLen = some cl → 0 < cl
  start : p.state.isStart = true → p.bytesCached = none
  cached : p.bytesCached ≠ some []

theorem newParser_wf (isClient : Bool) : (newParser isClient).WF where
  inv := newFields_inv isClient
  live := by cases isClient <;> nofun
  body := by cases isClient <;> nofun
  start := fun _ => rfl
  cached := nofun

/-- The bytes that are prepended to the data of the next call. -/
def Parser.cache (p : Parser) : Bytes := p.bytesCached.getD []

/-- Where the scanner is between two calls: in a byte state the cached bytes are those
it keeps, in a body state those it has not consumed. -/
def Parser.cfg (p : Parser) (log : Log) : Cfg × Bytes :=
  match p.toFields.bodyLen with
  | none => (⟨p.toFields, log, p.cache⟩, [])
  | some _ => (⟨p.toFields, log, []⟩, p.cache)

/-- The parser that keeps what the scanner keeps and has not consumed. -/
def Cfg.waiting (k : Cfg) (left : Bytes) : Parser :=
  { toFields := k.p, bytesCached := if k.kept ++ left = [] then none else some (k.kept ++ left),
    initialReadDeadlinePending := false }

namespace Parser

variable {p : Parser} {log : Log} {data : Bytes} {proc : Processor}

@[simp] theorem cfg_p : (p.cfg log).1.p = p.toFields := by
  unfold cfg
  split <;> rfl

@[simp] theorem cfg_log : (p.cfg log).1.log = log := by
  unfold cfg
  split <;> rfl

theorem cfg_bytes (p : Parser) (log : Log) : (p.cfg log).1.kept ++ (p.cfg log).2 = p.cache := by
  unfold cfg
  split
  · exact append_nil _
  · rfl

theorem WF.cfg (hp : p.WF) : (p.cfg log).1.WF := by
  refine ⟨by rw [cfg_p]; exact hp.inv, by rw [cfg_p]; exact hp.live, fun cl hb => ?_,
    fun hst => ?_⟩
  · rw [cfg_p] at hb
    refine ⟨hp.body cl hb, ?_⟩
    unfold Parser.cfg
    rw [hb]
  · rw [cfg_p] at hst
    have hnil : (p.cfg log).1.kept ++ (p.cfg log).2 = [] := by
      rw [cfg_bytes, cache, hp.start hst]
      rfl
    exact (append_eq_nil_iff.1 hnil).1

theorem aligned_cfg (hdata : data ≠ []) :
    Aligned (p.cache ++ data) 0 p.cache.length
      (p.cfg log).1 ((p.cfg log).2 ++ data) := by
  have hpos := length_pos_iff.2 hdata
  refine ⟨?_, Nat.zero_le _, fun hb => ?_, fun _ => ?_⟩
  · rw [drop_zero, ← append_assoc, cfg_bytes]
  · rw [cfg_p] at hb
    unfold Parser.cfg
    rw [hb, Nat.zero_add]
  · rw [length_append]
    omega

theorem keepLeft_eq {k : Cfg} {left : Bytes} (hfields : p.toFields = k.p)
    (hcached : p.bytesCached = some data ∨ p.bytesCached = none) (hdata : data ≠ [])
    (hpend : p.initialReadDeadlinePending = false) (hsuf : k.kept ++ left <:+ data) :
    p.keepLeft data (data.length - (k.kept.length + left.length)) = k.waiting left := by
  obtain ⟨f, cached, pending⟩ := p
  subst hfields hpend
  have hdrop := suffix_iff_eq_drop.1 hsuf
  have hle := hsuf.length_le
  rw [← length_append]
  unfold keepLeft Cfg.waiting
  by_cases hnil : k.kept ++ left = []
  · rw [hnil]
    rcases hcached with rfl | rfl
    · cases data with
      | nil => exact absurd rfl hdata
      | cons c rest => simp
    · simp
  · have hpos := length_pos_iff.2 hnil
    have hcount : 0 < data.length - (data.length - (k.kept ++ left).length) := by omega
    simp only [if_neg hnil, if_pos hcount, ← hdrop]
    rcases hcached with rfl | rfl
    · -- the cache already is the data: it is cut only if something was consumed
      by_cases hstart : 0 < data.length - (k.kept ++ left).length
      · simp only [if_pos hstart]
      · have hall : data = k.kept ++ left := by
          rw [hdrop, show data.length - (k.kept ++ left).length = 0 by omega]
          rfl
        simp only [if_neg hstart]
        rw [← hall]
    · rfl

/-- The cache while the loop runs: the whole data if there was something cached. -/
def loaded (p : Parser) (data : Bytes) : Parser :=
  { p with
    bytesCached := if 0 < p.cache.length then some (p.cache ++ data) else p.bytesCached
    initialReadDeadlinePending := false }

theorem loaded_eq : (if 0 < p.cache.length then
    { p.initReadDeadline with bytesCached := some (p.cache ++ data) }
    else p.initReadDeadline) = p.loaded data := by
  unfold loaded initReadDeadline
  split <;> rfl

theorem loaded_cached (hp : p.WF) : (p.loaded data).bytesCached = some (p.cache ++ data) ∨
    (p.loaded data).bytesCached = none := by
  have hc := hp.cached
  unfold loaded cache
  cases h : p.bytesCached with
  | none => exact .inr rfl
  | some cached =>
    left
    refine if_pos (length_pos_iff.2 fun hnil => hc ?_)
    rw [h]
    exact congrArg some hnil

/-- The check of a call against the `ReadLimit` of the engine. -/
def Exceeds (p : Parser) (readLimit : Int) (data : Bytes) : Prop :=
  0 < p.cache.length ∧ 0 < readLimit ∧ readLimit < p.cache.length + data.length

theorem loop_cfg (hp : p.WF) (hdata : data ≠ []) :
    loop proc (p.cache ++ data) ((p.cache ++ data).length + 1) p.toFields log 0 p.cache.length =
      loopEnd (p.cache ++ data) ((scanner proc).run (p.cfg log).1 ((p.cfg log).2 ++ data)) := by
  have hal : Aligned (p.cache ++ data) 0 p.cache.length (p.cfg log).1 ((p.cfg log).2 ++ data) :=
    aligned_cfg hdata
  have hlen : ((p.cfg log).2 ++ data).length < (p.cache ++ data).length + 1 := by
    rw [← p.cfg_bytes log]
    simp only [length_append]
    omega
  have h : loop proc _ _ (p.cfg log).1.p (p.cfg log).1.log _ _ = _ := loop_eq hal hp.cfg hlen
  rwa [cfg_p, cfg_log] at h

variable {readLimit : Int}

/-- A call of `Parse` runs the scanner over the cached bytes and the new data, and leaves
the loop as that run says. -/
theorem parse_eq (hp : p.WF) (hpc : p.parserCloser = false) (hdata : data ≠ [])
    (hlimit : ¬ p.Exceeds readLimit data) :
    p.parse proc readLimit log data =
      leave proc (p.loaded data) (p.cache ++ data)
        (loopEnd (p.cache ++ data)
          ((scanner proc).run (p.cfg log).1 ((p.cfg log).2 ++ data))) := by
  have hpc' : (p.loaded data).parserCloser ≠ true := by
    rw [show (p.loaded data).parserCloser = false from hpc]
    nofun
  rw [← loop_cfg hp hdata, parse, if_neg hp.live]
  refine (if_neg hdata).trans ((if_neg hlimit).trans ?_)
  simp only [show p.initReadDeadline.bytesCached.getD [] = p.cache from rfl, loaded_eq]
  exact if_neg hpc'

theorem parse_nil (hlive : p.state ≠ .close) (hpend : p.initialReadDeadlinePending = false) :
    p.parse proc readLimit log [] = { parser := p, log, err := none, recovered := false } := by
  have hinit : p.initReadDeadline = p := by
    obtain ⟨f, cached, pending⟩ := p
    subst hpend
    rfl
  rw [parse, if_neg hlive, hinit]
  rfl

theorem parse_exceeds (hp : p.WF) (hdata : data ≠ []) (hlimit : p.Exceeds readLimit data) :
    (p.parse proc readLimit log data).err = some .tooLong := by
  rw [parse, if_neg hp.live]
  exact congrArg Result.err ((if_neg hdata).trans (if_pos hlimit))

end Parser

end Nbio.Http
