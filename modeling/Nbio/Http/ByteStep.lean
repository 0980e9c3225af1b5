import Nbio.Http.Invariant

/-!
# What a byte can do

`onByte` has a case for each state, but a byte does only few kinds of things: it moves on within
a message, with or without a call for what it has read, it ends a header line, the header or the
message, or it is refused.  `onByte_does` says this once, and what holds of the fields and the calls
is then shown for each kind of step.
-/

namespace Nbio.Http

open Nbio.Go

/-- The states in front of the end of a blank line. -/
def State.inHead : State → Bool
  | .close | .headerOverLF | .bodyContentLength | .bodyChunkSizeBefore | .bodyChunkSize
  | .bodyChunkSizeLF | .bodyChunkData | .bodyChunkDataCR | .bodyChunkDataLF
  | .bodyTrailerHeaderValueLF | .bodyTrailerHeaderKeyBefore | .bodyTrailerHeaderKey
  | .bodyTrailerHeaderValueBefore | .bodyTrailerHeaderValue | .tailCR | .tailLF => false
  | _ => true

/-- Where the byte `c` may lead within a message: never back into the head, and to a body only if
it is a line feed. -/
def State.leads (s : State) (c : UInt8) (s' : State) : Bool :=
  (!s'.inHead || s.inHead) && (s'.isByte || c == LF)

/-- The calls for a part of a message, but for those at the end of a line of the header. -/
def Callback.isPiece : Callback → Bool
  | .onMethod _ | .onURL _ | .onProto _ | .onStatus _ _ | .onTrailerHeader _ _ => true
  | _ => false

/-- The parser is in the same state, and has been upgraded if it was. -/
structure Fields.Stands (p q : Fields) : Prop where
  state : q.state = p.state
  parserCloser : q.parserCloser = p.parserCloser

theorem Fields.Stands.trans {p q r : Fields} (h : p.Stands q) (h' : q.Stands r) : p.Stands r :=
  ⟨h'.state.trans h.state, h'.parserCloser.trans h.parserCloser⟩

/-- Fields that differ at most in what is known of the present line. -/
structure Fields.Alike (p q : Fields) : Prop extends p.Stands q where
  header : q.header = p.header
  chunked : q.chunked = p.chunked
  trailer : p.state.inHead = true → q.trailer = p.trailer

theorem alike {p : Fields} {proto status headerKey headerValue : Bytes} {statusCode chunkSize : Int}
    {trailer : List Bytes} {e : Bool} (ht : p.state.inHead = true → trailer = p.trailer := by
      first | exact fun _ => rfl | exact fun h => by cases h) :
    p.Alike { p with
      proto, statusCode, status, headerKey, headerValue, trailer, chunkSize, headerExists := e } :=
  ⟨⟨rfl, rfl⟩, rfl, rfl, ht⟩

/-- What a byte does that the loop goes on from. -/
inductive ByteStep (proc : Processor) (p : Fields) (log : Log) (c : UInt8) :
    Fields → Log → Prop where
  | stay {q : Fields} (hq : p.Alike q) : ByteStep proc p log c q log
  | move {q : Fields} {s : State} (hq : p.Alike q) (hs : p.state.leads c s = true) :
      ByteStep proc p log c (q.nextState s) log
  | call {q : Fields} {s : State} {cb : Callback} (hq : p.Alike q)
      (hs : p.state.leads c s = true) (hcb : cb.isPiece = true) :
      ByteStep proc p log c (q.nextState s) (log ++ [cb])
  /-- The end of a header line. -/
  | line (hin : p.state.inHead = true) (value : Bytes) :
      ByteStep proc p log c (p.endHeader value) (log ++ [.onHeader p.headerKey value])
  /-- The blank line. -/
  | blank {q : Fields} (hq : p.Stands q) (l : Int) :
      ByteStep proc p log c (q.nextState .headerOverLF) (log ++ [.onContentLength l])
  /-- The end of the message. -/
  | complete {q : Fields} (hq : p.Alike q) (hne : p.state ≠ .close) (hc : c = LF) :
      ByteStep proc p log c (endMessage proc q log).1 (endMessage proc q log).2

/-- What is left of the fields and the calls when a byte is refused. -/
structure ByteFail (p : Fields) (log : Log) (q : Fields) (log' : Log) : Prop
    extends p.Stands q where
  calls : log' = log ∨
    ∃ cb, (cb.isPiece = true ∨ ∃ l, cb = .onContentLength l) ∧ log' = log ++ [cb]

def Act.Does (proc : Processor) (p : Fields) (log : Log) (c : UInt8) : Act → Prop
  | .go q log' _ => ByteStep proc p log c q log'
  | .fail q log' _ => ByteFail p log q log'
  | .panic q log' => q = p ∧ log' = log

section Does

variable {proc : Processor} {p q : Fields} {log : Log} {c : UInt8} {s : State} {st : Start}

theorem does_ite {b : Prop} [Decidable b] {x y : Act} (hx : b → x.Does proc p log c)
    (hy : ¬ b → y.Does proc p log c) : (if b then x else y).Does proc p log c := by
  split
  · exact hx ‹_›
  · exact hy ‹_›

theorem does_withSlice {tok : Option Bytes} {k : Bytes → Act}
    (hk : ∀ t, (k t).Does proc p log c) : (withSlice p log tok k).Does proc p log c := by
  cases tok with
  | none => exact ⟨rfl, rfl⟩
  | some t => exact hk t

theorem does_fail (e : Err) : (Act.fail p log e).Does proc p log c := ⟨⟨rfl, rfl⟩, .inl rfl⟩

theorem does_withChunkSize {tok : Option Bytes} {k : Fields → Act}
    (hk : ∀ n, (k { p with chunkSize := n }).Does proc p log c) :
    (withChunkSize p log tok k).Does proc p log c := by
  refine does_ite (fun _ => does_withSlice fun t => ?_) fun _ => hk p.chunkSize
  split
  · exact does_fail _
  · exact hk _

theorem does_call {onErr : Fields} {cb : Callback} (hcb : cb.isPiece = true := by rfl)
    (herr : p.Alike onErr := by exact alike) (hq : p.Alike q := by exact alike)
    (hs : p.state.leads c s = true := by rfl) :
    (proc.call onErr q log cb fun q log => .go (q.nextState s) log st).Does proc p log c := by
  unfold Processor.call
  split
  · exact ⟨herr.toStands, .inr ⟨cb, .inl hcb, rfl⟩⟩
  · exact .call hq hs hcb

theorem Fields.parseTransferEncoding_stands (p : Fields) : p.Stands p.parseTransferEncoding.1 := by
  obtain ⟨hd, b, heq⟩ := p.parseTransferEncoding_eq
  rw [heq]
  exact ⟨rfl, rfl⟩

theorem Fields.parseContentLength_stands (p : Fields) : p.Stands p.parseContentLength.1 := by
  obtain ⟨l, heq⟩ := p.parseContentLength_eq
  rw [heq]
  exact ⟨rfl, rfl⟩

theorem Fields.parseTrailer_stands (p : Fields) : p.Stands p.parseTrailer.1 := by
  obtain ⟨hd, t, heq⟩ := p.parseTrailer_eq
  rw [heq]
  exact ⟨rfl, rfl⟩

theorem endHeaders_does : (endHeaders p log).Does proc p log c := by
  have h1 := p.parseTransferEncoding_stands
  unfold endHeaders
  split
  · next q1 e hq =>
    rw [hq] at h1
    exact ⟨h1, .inl rfl⟩
  · next q1 hq =>
    rw [hq] at h1
    have h2 := h1.trans q1.parseContentLength_stands
    split
    · next q2 e hq =>
      rw [hq] at h2
      exact ⟨h2, .inl rfl⟩
    · next q2 hq =>
      rw [hq] at h2
      have h3 := h2.trans q2.parseTrailer_stands
      split
      · next q3 e hq =>
        rw [hq] at h3
        exact ⟨h3, .inr ⟨_, .inr ⟨_, rfl⟩, rfl⟩⟩
      · next q3 hq =>
        rw [hq] at h3
        exact .blank h3 _

theorem does_stay (hq : p.Alike q := by exact alike) : (Act.go q log st).Does proc p log c :=
  .stay hq

theorem does_move (hq : p.Alike q := by exact alike) (hs : p.state.leads c s = true := by rfl) :
    (Act.go (q.nextState s) log st).Does proc p log c := .move hq hs

theorem does_expect {b : Prop} [Decidable b] {e : Err} (hq : p.Alike q := by exact alike)
    (hs : p.state.leads c s = true := by rfl) :
    (if b then Act.go (q.nextState s) log st else .fail p log e).Does proc p log c :=
  does_ite (fun _ => does_move hq hs) fun _ => does_fail e

theorem onByte_does (proc : Processor) (p : Fields) (log : Log) (tok : Option Bytes) (c : UInt8) :
    (onByte proc p log tok c).Does proc p log c := by
  have stay : ∀ st, (Act.go p log st).Does proc p log c := fun _ => does_stay
  obtain ⟨proto, statusCode, status, headerKey, headerValue, header, trailer, contentLength,
    chunkSize, state, chunked, isClient, headerExists, parserCloser⟩ := p
  cases state with
  | close => exact does_fail _
  | bodyContentLength | bodyChunkData => exact stay _
  -- states that wait for one kind of byte
  | methodBefore | protoLF | clientProtoBefore | statusLF | headerValueLF | bodyChunkSizeBefore
  | bodyChunkDataCR | bodyChunkDataLF | bodyTrailerHeaderValueLF | tailCR =>
    exact does_expect
  -- the request line
  | method =>
    refine does_ite (fun _ => does_withSlice fun t => does_ite (fun _ => does_fail _) fun _ => ?_)
      fun _ => does_ite (fun _ => does_fail _) fun _ => stay _
    exact .call alike rfl rfl
  | pathBefore =>
    exact does_ite (fun _ => does_move) fun _ =>
      does_ite (fun _ => stay _) fun _ => does_fail _
  | path | clientProto =>
    refine does_ite (fun _ => does_withSlice fun t => ?_) fun _ => stay _
    exact does_call
  | protoBefore => exact does_ite (fun _ => does_move) fun _ => stay _
  | proto =>
    refine does_ite (fun _ => does_withSlice fun t => does_stay) fun _ =>
      does_ite (fun _ => does_withSlice fun t => ?_) fun _ => stay _
    exact does_call
  -- the status line
  | statusCodeBefore | statusBefore =>
    exact does_ite (fun _ => does_fail _) fun _ =>
      does_ite (fun _ => does_move) fun _ => stay _
  | statusCode =>
    refine does_ite (fun _ => does_withSlice fun t => ?_) fun _ =>
      does_ite (fun _ => does_fail _) fun _ => stay _
    split
    · exact does_fail _
    · exact does_move
  | status =>
    refine does_ite (fun _ => does_withSlice fun t => does_stay) fun _ =>
      does_ite (fun _ => does_withSlice fun t => ?_) fun _ => stay _
    exact .call alike rfl rfl
  -- the header lines
  | headerKeyBefore =>
    refine does_ite (fun _ => does_ite (fun _ => does_fail _) fun _ => stay _) fun _ =>
      does_ite (fun _ => endHeaders_does) fun _ => does_ite (fun _ => does_fail _) fun _ =>
      does_ite (fun _ => ?_) fun _ => does_fail _
    exact .move (alike) rfl
  | headerKey =>
    exact does_ite (fun _ => does_withSlice fun t => does_stay) fun _ =>
      does_ite (fun _ => does_withSlice fun t => does_move) fun _ =>
      does_ite (fun _ => does_fail _) fun _ => does_ite (fun _ => does_fail _) fun _ => stay _
  | headerValueBefore =>
    exact does_ite (fun _ => stay _) fun _ =>
      does_ite (fun _ => does_withSlice fun t => .line rfl t) fun _ =>
      does_ite (fun _ => does_fail _) fun _ => does_move
  | headerValue =>
    exact does_ite (fun _ => does_withSlice fun t => .line rfl t) fun _ =>
      does_ite (fun _ => does_fail _) fun _ => stay _
  -- the body; the states that look ahead are entered at a line feed
  | headerOverLF =>
    refine does_ite (fun hc => ?_) fun _ => does_fail _
    subst hc
    exact does_ite (fun _ => does_move) fun _ =>
      does_ite (fun _ => does_move) fun _ => .complete alike nofun rfl
  | bodyChunkSize =>
    exact does_ite (fun _ => does_withChunkSize fun n => does_stay) fun _ =>
      does_ite (fun _ => does_withChunkSize fun n => does_move) fun _ =>
      does_ite (fun _ => does_withChunkSize fun n => does_stay) fun _ => stay _
  | bodyChunkSizeLF =>
    refine does_ite (fun hc => ?_) fun _ => does_fail _
    subst hc
    exact does_ite (fun _ => does_move) fun _ =>
      does_ite (fun _ => does_move) fun _ => does_move
  -- the trailer
  | bodyTrailerHeaderKeyBefore =>
    exact does_ite (fun _ => does_move) fun _ =>
      does_ite (fun _ => does_ite (fun _ => does_fail _) fun _ => does_move) fun _ => stay _
  | bodyTrailerHeaderKey =>
    exact does_ite (fun _ => does_withSlice fun t => does_stay) fun _ =>
      does_ite (fun _ => does_withSlice fun t => does_move) fun _ =>
      does_ite (fun _ => does_fail _) fun _ => stay _
  | bodyTrailerHeaderValueBefore =>
    exact does_ite (fun _ => stay _) fun _ =>
      does_ite (fun _ => does_withSlice fun t => .call alike rfl rfl) fun _ => does_move
  | bodyTrailerHeaderValue =>
    refine does_ite (fun _ => does_withSlice fun t => does_stay) fun _ =>
      does_ite (fun _ => does_withSlice fun t => does_ite (fun _ => ?_) fun _ => ?_) fun _ => stay _
    · exact ⟨⟨rfl, rfl⟩, .inl rfl⟩
    · exact .call alike rfl rfl
  | tailLF => exact does_ite (fun hc => .complete alike nofun hc) fun _ => does_fail _

end Does

end Nbio.Http
