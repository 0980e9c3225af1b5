import Nbio.Http.Parser

/-!
# What the fields hold between bytes

Most fields of a parser hold something only while a line that fills them is being read.
`State.dirt` says which may be filled in which state, `Fields.Within` that the others are blank, and
`onByte_spec` that every byte keeps this.
-/

namespace Nbio.Http

open Nbio.Go

/-! ## The outcome of a byte -/

/-- A byte does not lead to a panic, and `P` holds of the fields and of `start` if the
loop goes on. -/
def Act.Goes (a : Act) (P : Fields → Start → Prop) : Prop :=
  match a with
  | .go p _ s => P p s
  | .fail .. => True
  | .panic .. => False

section Goes

variable {P : Fields → Start → Prop}

@[simp] theorem goes_withSlice (p : Fields) (log : Log) (t : Bytes) (k : Bytes → Act) :
    (withSlice p log (some t) k).Goes P ↔ (k t).Goes P := Iff.rfl

theorem goes_ite {b : Prop} [Decidable b] {x y : Act} (hx : b → x.Goes P)
    (hy : ¬ b → y.Goes P) : (if b then x else y).Goes P := by
  split
  · exact hx ‹_›
  · exact hy ‹_›

theorem goes_call {proc : Processor} {onErr p : Fields} {log : Log} {cb : Callback}
    {k : Fields → Log → Act} (h : (k p (log ++ [cb])).Goes P) :
    (proc.call onErr p log cb k).Goes P := by
  unfold Processor.call
  split
  · trivial
  · exact h

theorem goes_withChunkSize {p : Fields} {log : Log} {t : Bytes} {k : Fields → Act}
    (h : ∀ n, (k { p with chunkSize := n }).Goes P) :
    (withChunkSize p log (some t) k).Goes P := by
  unfold withChunkSize
  split
  · rw [goes_withSlice]
    split
    · trivial
    · exact h _
  · exact h p.chunkSize

theorem orSlice_some (old t : Bytes) : ∃ v, orSlice old (some t) = some v := by
  unfold orSlice
  split
  · exact ⟨t, rfl⟩
  · exact ⟨old, rfl⟩

theorem goes_orSlice {p : Fields} {log : Log} {old t : Bytes} {k : Bytes → Act}
    (h : ∀ v, (k v).Goes P) : (withSlice p log (orSlice old (some t)) k).Goes P := by
  obtain ⟨v, hv⟩ := orSlice_some old t
  rw [hv]
  exact h v

theorem Act.Goes.elim {a : Act} (h : a.Goes P) {p : Fields} {log : Log} {s : Start}
    (e : a = .go p log s) : P p s := by
  subst e
  exact h

end Goes

/-! ## The blank line -/

theorem Fields.parseTransferEncoding_eq (p : Fields) :
    ∃ h b, p.parseTransferEncoding.1 = { p with header := h, chunked := b } := by
  unfold Fields.parseTransferEncoding
  split
  · exact ⟨_, _, rfl⟩
  · split
    · split <;> exact ⟨_, _, rfl⟩
    · exact ⟨_, _, rfl⟩

theorem Fields.parseContentLength_eq (p : Fields) :
    ∃ l, p.parseContentLength.1 = { p with contentLength := l } := by
  unfold Fields.parseContentLength
  simp only
  repeat' split
  all_goals exact ⟨_, rfl⟩

theorem Fields.parseTrailer_eq (p : Fields) :
    ∃ h t, p.parseTrailer.1 = { p with header := h, trailer := t } := by
  unfold Fields.parseTrailer
  repeat' split
  all_goals exact ⟨_, _, rfl⟩

def Fields.framed (p : Fields) (header : Header) (trailer : List Bytes) (chunked : Bool)
    (contentLength chunkSize : Int) : Fields :=
  { p with header, trailer, chunked, contentLength, chunkSize }

theorem goes_endHeaders {P : Fields → Start → Prop} {p : Fields} {log : Log}
    (h : ∀ hd t b l, P ((p.framed hd t b l p.chunkSize).nextState .headerOverLF) .after) :
    (endHeaders p log).Goes P := by
  obtain ⟨hd1, b, e1⟩ := p.parseTransferEncoding_eq
  unfold endHeaders
  split
  · trivial
  · next q1 hq1 =>
    rw [hq1] at e1
    obtain ⟨l, e2⟩ := q1.parseContentLength_eq
    split
    · trivial
    · next q2 hq2 =>
      rw [hq2] at e2
      obtain ⟨hd3, t, e3⟩ := q2.parseTrailer_eq
      split
      · trivial
      · next q3 hq3 =>
        rw [hq3] at e3
        subst e1 e2 e3
        exact h _ _ _ _

@[simp] theorem Fields.nextState_of_ne {p : Fields} (h : p.state ≠ .close) (s : State) :
    p.nextState s = { p with state := s } := by
  unfold Fields.nextState
  split
  · contradiction
  · rfl

theorem Fields.handleMessage_of_ne {p : Fields} (h : p.state ≠ .close) (closer : Bool) :
    p.handleMessage closer =
      { p with
        parserCloser := p.parserCloser || closer, chunked := false, header := [],
        trailer := [], state := startState p.isClient } := by
  unfold Fields.handleMessage Fields.nextState
  split
  · contradiction
  · rfl

/-! ## Which fields may be filled -/

/-- The fields that may be filled, by name. -/
structure Dirt where
  proto : Bool := false
  status : Bool := false
  statusCode : Bool := false
  headerKey : Bool := false
  headerValue : Bool := false
  headerExists : Bool := false
  /-- `header`, `trailer` and `chunked`. -/
  framing : Bool := false
deriving DecidableEq, Repr

def Dirt.le (d d' : Dirt) : Bool :=
  (d.proto ≤ d'.proto) && (d.status ≤ d'.status) && (d.statusCode ≤ d'.statusCode) &&
  (d.headerKey ≤ d'.headerKey) && (d.headerValue ≤ d'.headerValue) &&
  (d.headerExists ≤ d'.headerExists) && (d.framing ≤ d'.framing)

def State.dirt : State → Dirt
  | .close | .methodBefore | .method | .pathBefore | .path | .protoBefore | .protoLF
  | .clientProtoBefore | .statusCodeBefore | .statusCode | .statusLF => {}
  | .proto | .clientProto => { proto := true }
  | .statusBefore => { statusCode := true }
  | .status => { statusCode := true, status := true }
  | .headerKeyBefore | .headerValueLF | .headerOverLF => { headerExists := true, framing := true }
  | .headerKey | .headerValueBefore | .headerValue =>
    { headerKey := true, headerExists := true, framing := true }
  | .bodyContentLength | .bodyChunkSizeBefore | .bodyChunkSize | .bodyChunkSizeLF
  | .bodyChunkData | .bodyChunkDataCR | .bodyChunkDataLF | .bodyTrailerHeaderValueLF
  | .bodyTrailerHeaderKeyBefore | .tailCR | .tailLF => { framing := true }
  | .bodyTrailerHeaderKey | .bodyTrailerHeaderValueBefore => { headerKey := true, framing := true }
  | .bodyTrailerHeaderValue => { headerKey := true, headerValue := true, framing := true }

/-- Every field is blank that may not be filled. -/
structure Fields.Within (p : Fields) (d : Dirt) : Prop where
  proto : d.proto = false → p.proto = []
  status : d.status = false → p.status = []
  statusCode : d.statusCode = false → p.statusCode = 0
  headerKey : d.headerKey = false → p.headerKey = []
  headerValue : d.headerValue = false → p.headerValue = []
  headerExists : d.headerExists = false → p.headerExists = false
  framing : d.framing = false → p.header = [] ∧ p.trailer = [] ∧ p.chunked = false

namespace Fields.Within

variable {p : Fields} {d d' : Dirt}

variable (h : p.Within d)

include h

theorem mono (hd : d.le d' = true) : p.Within d' := by
  obtain ⟨h1, h2, h3, h4, h5, h6, h7⟩ := h
  simp only [Dirt.le, Bool.and_eq_true, decide_eq_true_eq] at hd
  obtain ⟨⟨⟨⟨⟨⟨l1, l2⟩, l3⟩, l4⟩, l5⟩, l6⟩, l7⟩ := hd
  have blank : ∀ {a b : Bool}, a ≤ b → b = false → a = false := by decide
  exact ⟨fun e => h1 (blank l1 e), fun e => h2 (blank l2 e), fun e => h3 (blank l3 e),
    fun e => h4 (blank l4 e), fun e => h5 (blank l5 e), fun e => h6 (blank l6 e),
    fun e => h7 (blank l7 e)⟩

theorem setState (s : State) : { p with state := s }.Within d :=
  ⟨h.proto, h.status, h.statusCode, h.headerKey, h.headerValue, h.headerExists, h.framing⟩

theorem move {s : State} (hd : d.le s.dirt = true) :
    { p with state := s }.Within s.dirt := (h.mono hd).setState s

theorem setProto (v : Bytes) :
    { p with proto := v }.Within { d with proto := true } :=
  ⟨nofun, h.status, h.statusCode, h.headerKey, h.headerValue, h.headerExists, h.framing⟩

theorem clearProto :
    { p with proto := [] }.Within { d with proto := false } :=
  ⟨fun _ => rfl, h.status, h.statusCode, h.headerKey, h.headerValue, h.headerExists, h.framing⟩

theorem setStatus (v : Bytes) :
    { p with status := v }.Within { d with status := true } :=
  ⟨h.proto, nofun, h.statusCode, h.headerKey, h.headerValue, h.headerExists, h.framing⟩

theorem setStatusCode (v : Int) :
    { p with statusCode := v }.Within { d with statusCode := true } :=
  ⟨h.proto, h.status, nofun, h.headerKey, h.headerValue, h.headerExists, h.framing⟩

theorem clearStatus :
    { p with statusCode := 0, status := [] }.Within
      { d with statusCode := false, status := false } :=
  ⟨h.proto, fun _ => rfl, fun _ => rfl, h.headerKey, h.headerValue, h.headerExists, h.framing⟩

theorem setHeaderKey (v : Bytes) :
    { p with headerKey := v }.Within { d with headerKey := true } :=
  ⟨h.proto, h.status, h.statusCode, nofun, h.headerValue, h.headerExists, h.framing⟩

theorem setHeaderValue (v : Bytes) :
    { p with headerValue := v }.Within { d with headerValue := true } :=
  ⟨h.proto, h.status, h.statusCode, h.headerKey, nofun, h.headerExists, h.framing⟩

theorem clearLine :
    { p with headerKey := [], headerValue := [] }.Within
      { d with headerKey := false, headerValue := false } :=
  ⟨h.proto, h.status, h.statusCode, fun _ => rfl, fun _ => rfl, h.headerExists, h.framing⟩

theorem endLine (hf : d.framing = true) (hd : Header) :
    { p with header := hd, headerKey := [], headerValue := [] }.Within
      { d with headerKey := false, headerValue := false } :=
  ⟨h.proto, h.status, h.statusCode, fun _ => rfl, fun _ => rfl, h.headerExists,
    fun e => by rw [hf] at e; cases e⟩

theorem setTrailer (hf : d.framing = true) (t : List Bytes) :
    { p with trailer := t }.Within d :=
  ⟨h.proto, h.status, h.statusCode, h.headerKey, h.headerValue, h.headerExists,
    fun e => by rw [hf] at e; cases e⟩

theorem setHeaderExists :
    { p with headerExists := true }.Within { d with headerExists := true } :=
  ⟨h.proto, h.status, h.statusCode, h.headerKey, h.headerValue, nofun, h.framing⟩

theorem clearHeaderExists :
    { p with headerExists := false }.Within { d with headerExists := false } :=
  ⟨h.proto, h.status, h.statusCode, h.headerKey, h.headerValue, fun _ => rfl, h.framing⟩

theorem setFraming (hf : d.framing = true) (hd : Header) (t : List Bytes) (b : Bool) (l n : Int) :
    (p.framed hd t b l n).Within d :=
  ⟨h.proto, h.status, h.statusCode, h.headerKey, h.headerValue, h.headerExists,
    fun e => by rw [hf] at e; cases e⟩

theorem clearFraming (closer : Bool) :
    { p with parserCloser := closer, chunked := false, header := [], trailer := [] }.Within
      { d with framing := false } :=
  ⟨h.proto, h.status, h.statusCode, h.headerKey, h.headerValue, h.headerExists,
    fun _ => ⟨rfl, rfl, rfl⟩⟩

end Fields.Within

def Fields.Inv (p : Fields) : Prop := p.Within p.state.dirt

theorem Fields.Inv.at {p : Fields} {s : State} (h : p.Inv) (hs : p.state = s) :
    p.Within s.dirt := hs ▸ h

theorem newFields_inv (isClient : Bool) : (newFields isClient).Inv :=
  ⟨fun _ => rfl, fun _ => rfl, fun _ => rfl, fun _ => rfl, fun _ => rfl, fun _ => rfl,
    fun _ => ⟨rfl, rfl, rfl⟩⟩

/-- A state of the byte loop: neither closed nor one of the body states. -/
def State.isByte : State → Bool
  | .close | .bodyContentLength | .bodyChunkData => false
  | _ => true

/-- A state in which a parser waits for a message. -/
def State.isStart : State → Bool
  | .methodBefore | .clientProtoBefore => true
  | _ => false

@[simp] theorem isStart_startState (isClient : Bool) : (startState isClient).isStart = true := by
  cases isClient <;> rfl

theorem Fields.bodyLen_of_isByte {p : Fields} (h : p.state.isByte = true) :
    p.bodyLen = none := by
  unfold Fields.bodyLen
  split <;> simp_all [State.isByte]

/-- What a byte that the loop goes on from does to the fields. -/
structure ByteSpec (proc : Processor) (p p' : Fields) (s : Start) : Prop where
  inv : p'.Inv
  isClient : p'.isClient = p.isClient
  live : p'.state ≠ .close
  /-- A body state is entered with a positive length, right behind the current byte. -/
  enterBody : ∀ cl, p'.bodyLen = some cl → 0 < cl ∧ s = .after
  /-- A message ends right behind the current byte. -/
  enterStart : p'.state.isStart = true → s = .after
  closer : p'.parserCloser = p.parserCloser ∨ ∃ log, proc.closer log = true

namespace ByteSpec

variable {proc : Processor} {p q : Fields} {d : Dirt} {s : Start}

theorem next {s' : State} (hq : q.Within d) (hne : q.state ≠ .close := by nofun)
    (hcl : q.isClient = p.isClient := by rfl) (hpc : q.parserCloser = p.parserCloser := by rfl)
    (hd : d.le s'.dirt = true := by rfl) (hs : s'.isByte = true := by rfl)
    (hst : s'.isStart = false := by rfl) :
    ByteSpec proc p (q.nextState s') s := by
  rw [Fields.nextState_of_ne hne]
  refine ⟨hq.move hd, hcl, ?_, ?_, fun h => ?_, .inl hpc⟩
  · rintro rfl
    cases hs
  · intro cl h
    rw [Fields.bodyLen_of_isByte hs] at h
    cases h
  · rw [hst] at h
    cases h

theorem stay (hq : q.Within q.state.dirt) (hs : q.state.isByte = true := by rfl)
    (hcl : q.isClient = p.isClient := by rfl) (hpc : q.parserCloser = p.parserCloser := by rfl)
    (hst : q.state.isStart = false := by rfl) : ByteSpec proc p q s := by
  refine ⟨hq, hcl, ?_, ?_, fun h => ?_, .inl hpc⟩
  · intro h
    rw [h] at hs
    cases hs
  · intro cl h
    rw [Fields.bodyLen_of_isByte hs] at h
    cases h
  · rw [hst] at h
    cases h

theorem message {log : Log} (hq : q.Within { framing := true })
    (hne : q.state ≠ .close := by nofun) (hcl : q.isClient = p.isClient := by rfl)
    (hpc : q.parserCloser = p.parserCloser := by rfl) :
    ByteSpec proc p (endMessage proc q log).1 .after := by
  have hstart : ∀ b : Bool, (startState b).isByte = true := by decide
  have hdirt : ∀ b : Bool, (startState b).dirt = {} := by decide
  unfold endMessage
  rw [Fields.handleMessage_of_ne hne]
  refine ⟨?_, hcl, ?_, ?_, fun _ => rfl, ?_⟩
  · refine Fields.Within.move (hq.clearFraming _) ?_
    rw [hdirt]
    decide
  · intro h
    have := hstart q.isClient
    rw [show startState q.isClient = .close from h] at this
    cases this
  · intro cl h
    rw [Fields.bodyLen_of_isByte (hstart q.isClient)] at h
    cases h
  · cases hc : proc.closer (log ++ [.onComplete]) with
    | false => left; simpa using hpc
    | true => exact .inr ⟨_, hc⟩

end ByteSpec

theorem onByte_spec {proc : Processor} {p : Fields} {log : Log} {t : Bytes} {c : UInt8}
    (hp : p.Inv) (hs : p.state.isByte = true) :
    (onByte proc p log (some t) c).Goes (ByteSpec proc p) := by
  have stay : p.state.isStart = false → ∀ s, ByteSpec proc p p s :=
    fun hst s => .stay hp hs rfl rfl hst
  obtain ⟨proto, statusCode, status, headerKey, headerValue, header, trailer, contentLength,
    chunkSize, state, chunked, isClient, headerExists, parserCloser⟩ := p
  cases state with
  | close => cases hs
  | bodyContentLength | bodyChunkData => exact stay rfl _
  -- states that wait for one kind of byte
  | methodBefore | protoLF | clientProtoBefore | statusLF | headerValueLF | bodyChunkDataCR
  | bodyChunkDataLF | bodyTrailerHeaderValueLF | tailCR =>
    exact goes_ite (fun _ => .next (hp.at rfl)) fun _ => trivial
  -- the request line
  | method =>
    refine goes_ite (fun _ => goes_ite (fun _ => trivial) fun _ => ?_) fun _ => ?_
    · exact .next (hp.at rfl)
    · exact goes_ite (fun _ => trivial) fun _ => stay rfl _
  | pathBefore =>
    refine goes_ite (fun _ => ?_) fun _ => goes_ite (fun _ => stay rfl _) fun _ => trivial
    exact .next (hp.at rfl)
  | path =>
    refine goes_ite (fun _ => ?_) fun _ => stay rfl _
    rw [goes_withSlice]
    exact goes_call (.next (hp.at rfl))
  | protoBefore =>
    exact goes_ite (fun _ => .next (hp.at rfl)) fun _ => stay rfl _
  | proto =>
    refine goes_ite (fun _ => goes_orSlice fun v => ?_) fun _ =>
      goes_ite (fun _ => goes_orSlice fun v => goes_call ?_) fun _ => stay rfl _
    · exact .stay ((hp.at rfl).setProto v)
    · exact .next (hp.at rfl).clearProto
  -- the status line
  | clientProto =>
    refine goes_ite (fun _ => goes_orSlice fun v => goes_call ?_) fun _ => stay rfl _
    exact .next (hp.at rfl).clearProto
  | statusCodeBefore | statusBefore =>
    refine goes_ite (fun _ => trivial) fun _ => goes_ite (fun _ => ?_) fun _ => stay rfl _
    exact .next (hp.at rfl)
  | statusCode =>
    refine goes_ite (fun _ => ?_) fun _ => goes_ite (fun _ => trivial) fun _ => stay rfl _
    rw [goes_withSlice]
    split
    · trivial
    · exact .next ((hp.at rfl).setStatusCode _)
  | status =>
    refine goes_ite (fun _ => goes_orSlice fun v => ?_) fun _ =>
      goes_ite (fun _ => goes_orSlice fun v => ?_) fun _ => stay rfl _
    · exact .stay ((hp.at rfl).setStatus v)
    · exact .next (hp.at rfl).clearStatus
  -- the header lines
  | headerKeyBefore =>
    refine goes_ite (fun _ => goes_ite (fun _ => trivial) fun _ => stay rfl _) fun _ =>
      goes_ite (fun _ => goes_endHeaders fun hd t b l => ?_) fun _ =>
      goes_ite (fun _ => trivial) fun _ => goes_ite (fun _ => ?_) fun _ => trivial
    · exact .next ((hp.at rfl).setFraming rfl hd t b l _)
    · exact .stay (((hp.at rfl).setHeaderExists.setState _).mono rfl)
  | headerKey =>
    refine goes_ite (fun _ => goes_orSlice fun v => ?_) fun _ =>
      goes_ite (fun _ => goes_orSlice fun v => ?_) fun _ =>
      goes_ite (fun _ => trivial) fun _ => goes_ite (fun _ => trivial) fun _ => stay rfl _
    · exact .stay ((hp.at rfl).setHeaderKey v)
    · exact .next ((hp.at rfl).setHeaderKey v)
  | headerValueBefore =>
    refine goes_ite (fun _ => stay rfl _) fun _ => goes_ite (fun _ => goes_orSlice fun v => ?_)
      fun _ => goes_ite (fun _ => trivial) fun _ => ?_
    · exact .next ((hp.at rfl).endLine rfl _)
    · exact .next (hp.at rfl)
  | headerValue =>
    refine goes_ite (fun _ => goes_orSlice fun v => ?_) fun _ =>
      goes_ite (fun _ => trivial) fun _ => stay rfl _
    exact .next ((hp.at rfl).endLine rfl _)
  | headerOverLF =>
    have hw := (hp.at rfl).clearHeaderExists
    refine goes_ite (fun _ => goes_ite (fun _ => ?_) fun _ => goes_ite (fun hcl => ?_)
      fun _ => ?_) fun _ => trivial
    · exact .next hw
    · refine ⟨hw.move rfl, rfl, nofun, fun cl h => ?_, nofun, .inl rfl⟩
      cases h
      exact ⟨hcl, rfl⟩
    · exact .message hw
  -- the chunks
  | bodyChunkSizeBefore =>
    refine goes_ite (fun _ => ?_) fun _ => trivial
    exact .next ((hp.at rfl).setFraming rfl _ _ _ _ _)
  | bodyChunkSize =>
    have hw := fun n => (hp.at rfl).setFraming rfl header trailer chunked contentLength n
    refine goes_ite (fun _ => goes_withChunkSize fun n => ?_) fun _ =>
      goes_ite (fun _ => goes_withChunkSize fun n => ?_) fun _ =>
      goes_ite (fun _ => goes_withChunkSize fun n => ?_) fun _ => stay rfl _
    · exact .stay (hw n)
    · exact .next (hw n)
    · exact .stay (hw n)
  | bodyChunkSizeLF =>
    refine goes_ite (fun _ => goes_ite (fun hsz => ?_) fun _ => goes_ite (fun _ => ?_)
      fun _ => ?_) fun _ => trivial
    · refine ⟨(hp.at rfl).move rfl, rfl, nofun, fun cl h => ?_, nofun, .inl rfl⟩
      cases h
      exact ⟨hsz, rfl⟩
    · exact .next (hp.at rfl)
    · exact .next (hp.at rfl)
  -- the trailer lines
  | bodyTrailerHeaderKeyBefore =>
    refine goes_ite (fun _ => ?_) fun _ =>
      goes_ite (fun _ => goes_ite (fun _ => trivial) fun _ => ?_) fun _ => stay rfl _
    · exact .next (hp.at rfl)
    · exact .next (hp.at rfl)
  | bodyTrailerHeaderKey =>
    refine goes_ite (fun _ => goes_orSlice fun v => ?_) fun _ =>
      goes_ite (fun _ => goes_orSlice fun v => ?_) fun _ =>
      goes_ite (fun _ => trivial) fun _ => stay rfl _
    · exact .stay ((hp.at rfl).setHeaderKey v)
    · exact .next ((hp.at rfl).setHeaderKey v)
  | bodyTrailerHeaderValueBefore =>
    refine goes_ite (fun _ => stay rfl _) fun _ =>
      goes_ite (fun _ => goes_orSlice fun v => ?_) fun _ => ?_
    · exact .next (hp.at rfl).clearLine
    · exact .next (hp.at rfl)
  | bodyTrailerHeaderValue =>
    refine goes_ite (fun _ => goes_orSlice fun v => ?_) fun _ =>
      goes_ite (fun _ => goes_orSlice fun v => goes_ite (fun _ => trivial) fun _ => ?_)
      fun _ => stay rfl _
    · exact .stay ((hp.at rfl).setHeaderValue v)
    · exact .next ((hp.at rfl).setTrailer rfl _).clearLine
  -- the end
  | tailLF => exact goes_ite (fun _ => .message (hp.at rfl)) fun _ => trivial

end Nbio.Http
