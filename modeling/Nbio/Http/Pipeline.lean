import Nbio.Http.Segmentation

/-!
# A completed message leaves no trace

`handleMessage` resets the headers but not the other fields of the parser.  Most of those are blank
again when a message ends (`Fields.Inv`).  The two that are not, `contentLength` and `chunkSize`,
are not read before the next message has set them: `Fields.Same` relates fields that differ only in
lengths the state does not read, and `onByte_same` says that no byte tells such fields apart.
-/

namespace Nbio.Http

open Nbio.Go Nbio.Lib List

def State.readsContentLength : State → Bool
  | .headerOverLF | .bodyContentLength => true
  | _ => false

def State.readsChunkSize : State → Bool
  | .bodyChunkSize | .bodyChunkSizeLF | .bodyChunkData => true
  | _ => false

def Fields.withLens (p : Fields) (l n : Int) : Fields :=
  { p with contentLength := l, chunkSize := n }

/-- Fields that differ only in lengths that the state does not read. -/
def Fields.Same (p q : Fields) : Prop :=
  ∃ l n, q = p.withLens l n ∧
    (p.state.readsContentLength = true → l = p.contentLength) ∧
    (p.state.readsChunkSize = true → n = p.chunkSize)

/-- Reactions to a byte that differ only in lengths that are not read. -/
inductive Act.Same : Act → Act → Prop where
  | go {p q : Fields} (log : Log) (s : Start) (h : p.Same q) : Same (.go p log s) (.go q log s)
  | fail (p q : Fields) (log : Log) (e : Err) : Same (.fail p log e) (.fail q log e)
  | panic (p q : Fields) (log : Log) : Same (.panic p log) (.panic q log)

section Same

variable {p q : Fields} {log : Log}

theorem same_ite {b : Prop} [Decidable b] {x y x' y' : Act} (hx : b → x.Same x')
    (hy : ¬ b → y.Same y') : (if b then x else y).Same (if b then x' else y') := by
  split
  · exact hx ‹_›
  · exact hy ‹_›

theorem same_withSlice {tok : Option Bytes} {k k' : Bytes → Act} (h : ∀ t, (k t).Same (k' t)) :
    (withSlice p log tok k).Same (withSlice q log tok k') := by
  cases tok with
  | none => exact .panic p q log
  | some t => exact h t

theorem same_call {proc : Processor} {onErr onErr' : Fields} {cb : Callback}
    {k k' : Fields → Log → Act} (h : (k p (log ++ [cb])).Same (k' q (log ++ [cb]))) :
    (proc.call onErr p log cb k).Same (proc.call onErr' q log cb k') := by
  unfold Processor.call
  split
  · exact .fail _ _ _ _
  · exact h

theorem same_withChunkSize {tok : Option Bytes} {k : Fields → Act} (l : Int)
    (h : ∀ n, (k { p with chunkSize := n }).Same (k (p.withLens l n))) :
    (withChunkSize p log tok k).Same (withChunkSize (p.withLens l p.chunkSize) log tok k) := by
  refine same_ite (fun _ => same_withSlice fun t => ?_) fun _ => h p.chunkSize
  split
  · exact .fail _ _ _ _
  · exact h _

theorem endMessage_same (proc : Processor) (l n : Int) (hne : p.state ≠ .close) :
    (endMessage proc p log).1.Same (endMessage proc (p.withLens l n) log).1 := by
  unfold endMessage
  rw [Fields.handleMessage_of_ne hne, Fields.handleMessage_of_ne (p := p.withLens l n) hne]
  refine ⟨l, n, rfl, ?_, ?_⟩
  · cases p.isClient <;> nofun
  · cases p.isClient <;> nofun

theorem Fields.parseTransferEncoding_withLens (p : Fields) (l n : Int) :
    (p.withLens l n).parseTransferEncoding =
      (p.parseTransferEncoding.1.withLens l n, p.parseTransferEncoding.2) := by
  unfold Fields.parseTransferEncoding
  simp only [show (p.withLens l n).header = p.header from rfl]
  split
  · rfl
  · split
    · split <;> rfl
    · rfl

theorem Fields.parseContentLength_withLens (p : Fields) (l n : Int) :
    (∃ e, p.parseContentLength = (p, some e) ∧
      (p.withLens l n).parseContentLength = (p.withLens l n, some e)) ∨
    ∃ p', p.parseContentLength = (p', none) ∧ p'.state = p.state ∧
      (p.withLens l n).parseContentLength = (p'.withLens p'.contentLength n, none) := by
  unfold Fields.parseContentLength
  simp only [show (p.withLens l n).header = p.header from rfl,
    show (p.withLens l n).chunked = p.chunked from rfl]
  split
  · exact .inr ⟨_, rfl, rfl, rfl⟩
  · split
    · exact .inl ⟨_, rfl, rfl⟩
    · split
      · exact .inl ⟨_, rfl, rfl⟩
      · split
        · exact .inl ⟨_, rfl, rfl⟩
        · exact .inr ⟨_, rfl, rfl, rfl⟩

theorem Fields.parseTrailer_withLens (p : Fields) (l n : Int) :
    (p.withLens l n).parseTrailer = (p.parseTrailer.1.withLens l n, p.parseTrailer.2) := by
  unfold Fields.parseTrailer
  simp only [show (p.withLens l n).header = p.header from rfl,
    show (p.withLens l n).chunked = p.chunked from rfl]
  split
  · rfl
  · split
    · rfl
    · split <;> rfl

theorem endHeaders_same (l n : Int) (hst : p.state = .headerKeyBefore) :
    (endHeaders p log).Same (endHeaders (p.withLens l n) log) := by
  obtain ⟨hd, b, hte⟩ := p.parseTransferEncoding_eq
  unfold endHeaders
  rw [Fields.parseTransferEncoding_withLens]
  rcases hpte : p.parseTransferEncoding with ⟨p1, _ | e⟩
  · rw [hpte] at hte
    obtain ⟨e, h1, h2⟩ | ⟨p2, h1, hst2, h2⟩ := p1.parseContentLength_withLens l n
    · simp only [h1, h2]
      exact .fail _ _ _ _
    · obtain ⟨hd', t, htr⟩ := p2.parseTrailer_eq
      simp only [h1, h2]
      rw [Fields.parseTrailer_withLens]
      rcases hptr : p2.parseTrailer with ⟨p3, _ | e⟩
      · rw [hptr] at htr
        simp only at hte htr
        have hst3 : p3.state ≠ .close := by
          rw [show p3.state = p2.state by rw [htr], hst2, hte]
          simp [hst]
        simp only [Fields.nextState_of_ne hst3]
        rw [Fields.nextState_of_ne (p := p3.withLens p2.contentLength n) hst3]
        exact .go _ _ ⟨p2.contentLength, n, rfl, fun _ => by rw [htr], nofun⟩
      · exact .fail _ _ _ _
  · exact .fail _ _ _ _

theorem same_go {p' : Fields} {s : Start} (l n : Int) (hp' : p' = p.withLens l n := by rfl)
    (hl : p.state.readsContentLength = false := by rfl)
    (hn : p.state.readsChunkSize = false := by rfl) :
    Act.Same (.go p log s) (.go p' log s) := by
  refine .go _ _ ⟨l, n, hp', fun h => ?_, fun h => ?_⟩
  · exact absurd (hl.symm.trans h) Bool.false_ne_true
  · exact absurd (hn.symm.trans h) Bool.false_ne_true

theorem onByte_same {proc : Processor} {tok : Option Bytes} {c : UInt8} (h : p.Same q) :
    (onByte proc p log tok c).Same (onByte proc q log tok c) := by
  obtain ⟨l, n, rfl, hl, hn⟩ := h
  have stay : ∀ s, Act.Same (.go p log s) (.go (p.withLens l n) log s) :=
    fun s => .go _ _ ⟨l, n, rfl, hl, hn⟩
  obtain ⟨proto, statusCode, status, headerKey, headerValue, header, trailer, contentLength,
    chunkSize, state, chunked, isClient, headerExists, parserCloser⟩ := p
  cases state with
  | close => exact .fail _ _ _ _
  | bodyContentLength | bodyChunkData => exact stay _
  -- states that wait for one kind of byte
  | methodBefore | protoLF | clientProtoBefore | statusLF | headerValueLF | bodyChunkDataCR
  | bodyChunkDataLF | bodyTrailerHeaderValueLF | tailCR =>
    exact same_ite (fun _ => same_go l n) fun _ => .fail _ _ _ _
  -- the request line
  | method =>
    exact same_ite (fun _ => same_withSlice fun t => same_ite (fun _ => .fail _ _ _ _)
      fun _ => same_go l n) fun _ => same_ite (fun _ => .fail _ _ _ _) fun _ => stay _
  | pathBefore =>
    exact same_ite (fun _ => same_go l n) fun _ =>
      same_ite (fun _ => stay _) fun _ => .fail _ _ _ _
  | path | clientProto =>
    refine same_ite (fun _ => same_withSlice fun t => same_call ?_) fun _ => stay _
    exact same_go l n
  | protoBefore => exact same_ite (fun _ => same_go l n) fun _ => stay _
  | proto =>
    refine same_ite (fun _ => same_withSlice fun t => same_go l n) fun _ =>
      same_ite (fun _ => same_withSlice fun t => same_call ?_) fun _ => stay _
    exact same_go l n
  -- the status line
  | statusCodeBefore | statusBefore =>
    exact same_ite (fun _ => .fail _ _ _ _) fun _ =>
      same_ite (fun _ => same_go l n) fun _ => stay _
  | statusCode =>
    refine same_ite (fun _ => same_withSlice fun t => ?_) fun _ =>
      same_ite (fun _ => .fail _ _ _ _) fun _ => stay _
    split
    · exact .fail _ _ _ _
    · exact same_go l n
  | status =>
    exact same_ite (fun _ => same_withSlice fun t => same_go l n) fun _ =>
      same_ite (fun _ => same_withSlice fun t => same_go l n) fun _ => stay _
  -- the header lines
  | headerKeyBefore =>
    exact same_ite (fun _ => same_ite (fun _ => .fail _ _ _ _) fun _ => stay _) fun _ =>
      same_ite (fun _ => endHeaders_same l n rfl) fun _ => same_ite (fun _ => .fail _ _ _ _)
      fun _ => same_ite (fun _ => same_go l n) fun _ => .fail _ _ _ _
  | headerKey =>
    exact same_ite (fun _ => same_withSlice fun t => same_go l n) fun _ =>
      same_ite (fun _ => same_withSlice fun t => same_go l n) fun _ =>
      same_ite (fun _ => .fail _ _ _ _) fun _ => same_ite (fun _ => .fail _ _ _ _) fun _ => stay _
  | headerValueBefore =>
    exact same_ite (fun _ => stay _) fun _ =>
      same_ite (fun _ => same_withSlice fun t => same_go l n) fun _ =>
      same_ite (fun _ => .fail _ _ _ _) fun _ => same_go l n
  | headerValue =>
    exact same_ite (fun _ => same_withSlice fun t => same_go l n) fun _ =>
      same_ite (fun _ => .fail _ _ _ _) fun _ => stay _
  | headerOverLF =>
    -- here `contentLength` is read, and the two agree on it
    obtain rfl : l = contentLength := hl rfl
    refine same_ite (fun _ => same_ite (fun _ => same_go l n) fun _ =>
      same_ite (fun _ => ?_) fun _ => ?_) fun _ => .fail _ _ _ _
    · exact .go _ _ ⟨l, n, rfl, fun _ => rfl, nofun⟩
    · exact .go _ _ (endMessage_same proc l n nofun)
  -- the chunks
  | bodyChunkSizeBefore =>
    exact same_ite (fun _ => .go _ _ ⟨l, -1, rfl, nofun, fun _ => rfl⟩) fun _ => .fail _ _ _ _
  | bodyChunkSize =>
    obtain rfl : n = chunkSize := hn rfl
    refine same_ite (fun _ => same_withChunkSize l fun m => ?_) fun _ =>
      same_ite (fun _ => same_withChunkSize l fun m => ?_) fun _ =>
      same_ite (fun _ => same_withChunkSize l fun m => ?_) fun _ => stay _
    · exact .go _ _ ⟨l, m, rfl, nofun, fun _ => rfl⟩
    · exact .go _ _ ⟨l, m, rfl, nofun, fun _ => rfl⟩
    · exact .go _ _ ⟨l, m, rfl, nofun, fun _ => rfl⟩
  | bodyChunkSizeLF =>
    obtain rfl : n = chunkSize := hn rfl
    refine same_ite (fun _ => same_ite (fun _ => ?_) fun _ =>
      same_ite (fun _ => same_go l n) fun _ => same_go l n)
      fun _ => .fail _ _ _ _
    exact .go _ _ ⟨l, n, rfl, nofun, fun _ => rfl⟩
  -- the trailer lines
  | bodyTrailerHeaderKeyBefore =>
    exact same_ite (fun _ => same_go l n) fun _ => same_ite (fun _ =>
      same_ite (fun _ => .fail _ _ _ _) fun _ => same_go l n) fun _ => stay _
  | bodyTrailerHeaderKey =>
    exact same_ite (fun _ => same_withSlice fun t => same_go l n) fun _ =>
      same_ite (fun _ => same_withSlice fun t => same_go l n) fun _ =>
      same_ite (fun _ => .fail _ _ _ _) fun _ => stay _
  | bodyTrailerHeaderValueBefore =>
    exact same_ite (fun _ => stay _) fun _ =>
      same_ite (fun _ => same_withSlice fun t => same_go l n) fun _ =>
      same_go l n
  | bodyTrailerHeaderValue =>
    exact same_ite (fun _ => same_withSlice fun t => same_go l n) fun _ =>
      same_ite (fun _ => same_withSlice fun t =>
        same_ite (fun _ => .fail _ _ _ _) fun _ => same_go l n) fun _ => stay _
  -- the end
  | tailLF =>
    exact same_ite (fun _ => .go _ _ (endMessage_same proc l n nofun)) fun _ => .fail _ _ _ _

theorem Fields.Same.bodyLen (h : p.Same q) : q.bodyLen = p.bodyLen := by
  obtain ⟨l, n, rfl, hl, hn⟩ := h
  unfold Fields.bodyLen
  cases hst : p.state <;> rw [hst] at hl hn <;>
    simp only [show (p.withLens l n).state = p.state from rfl, hst]
  · exact congrArg some (hl rfl)
  · exact congrArg some (hn rfl)

theorem endBody_same {proc : Processor} (h : p.Same q) {cl : Int} (hb : p.bodyLen = some cl) :
    (endBody proc p log).1.Same (endBody proc q log).1 ∧
      (endBody proc p log).2 = (endBody proc q log).2 := by
  obtain ⟨l, n, rfl, -, -⟩ := h
  obtain ⟨proto, statusCode, status, headerKey, headerValue, header, trailer, contentLength,
    chunkSize, state, chunked, isClient, headerExists, parserCloser⟩ := p
  cases state with
  | bodyContentLength => exact ⟨endMessage_same proc l n nofun, rfl⟩
  | bodyChunkData => exact ⟨⟨l, n, rfl, nofun, nofun⟩, rfl⟩
  | _ => cases hb

end Same

variable {isClient : Bool}

theorem Fields.Inv.same_newFields {p : Fields} (hp : p.Inv) (hst : p.state = startState isClient)
    (hcl : p.isClient = isClient) (hpc : p.parserCloser = false) : p.Same (newFields isClient) := by
  have hdirt : (startState isClient).dirt = {} := by cases isClient <;> rfl
  have hw : p.Within {} := hdirt ▸ hp.at hst
  have h1 := hw.proto rfl
  have h2 := hw.status rfl
  have h3 := hw.statusCode rfl
  have h4 := hw.headerKey rfl
  have h5 := hw.headerValue rfl
  have h6 := hw.headerExists rfl
  obtain ⟨h7, h8, h9⟩ := hw.framing rfl
  obtain ⟨proto, statusCode, status, headerKey, headerValue, header, trailer, contentLength,
    chunkSize, state, chunked, isClient', headerExists, parserCloser⟩ := p
  simp only at h1 h2 h3 h4 h5 h6 h7 h8 h9 hst hcl hpc
  subst hst
  refine ⟨0, 0, ?_, ?_, ?_⟩
  · simp [newFields, Fields.withLens, h1, h2, h3, h4, h5, h6, h7, h8, h9, hcl, hpc]
  · cases isClient <;> nofun
  · cases isClient <;> nofun

/-! ## The calls made before -/

/-- The processor after it has received the calls of `pre`. -/
def Processor.after (proc : Processor) (pre : Log) : Processor :=
  { result := fun log => proc.result (pre ++ log), closer := fun log => proc.closer (pre ++ log) }

def Act.shift (pre : Log) : Act → Act
  | .go p log s => .go p (pre ++ log) s
  | .fail p log e => .fail p (pre ++ log) e
  | .panic p log => .panic p (pre ++ log)

section Shift

variable {proc : Processor} {pre log : Log} {p : Fields}

theorem shift_go {s : Start} : (Act.go p log s).shift pre = .go p (pre ++ log) s := rfl

theorem shift_fail {e : Err} : (Act.fail p log e).shift pre = .fail p (pre ++ log) e := rfl

theorem shift_ite {b : Prop} [Decidable b] {x y : Act} :
    (if b then x else y).shift pre = if b then x.shift pre else y.shift pre :=
  apply_ite _ _ _ _

theorem shift_withSlice {tok : Option Bytes} {k : Bytes → Act} :
    (withSlice p log tok k).shift pre =
      withSlice p (pre ++ log) tok fun t => (k t).shift pre := by
  cases tok <;> rfl

theorem shift_withChunkSize {tok : Option Bytes} {k : Fields → Act} :
    (withChunkSize p log tok k).shift pre =
      withChunkSize p (pre ++ log) tok fun q => (k q).shift pre := by
  unfold withChunkSize
  split
  · rw [shift_withSlice]
    congr 1
    funext t
    cases parseAndValidateChunkSize t <;> rfl
  · rfl

theorem shift_call {onErr : Fields} {cb : Callback} {st : State} {s : Start} :
    ((proc.after pre).call onErr p log cb fun p log => .go (p.nextState st) log s).shift pre =
      proc.call onErr p (pre ++ log) cb fun p log => .go (p.nextState st) log s := by
  unfold Processor.call Processor.after
  simp only [← append_assoc]
  cases proc.result (pre ++ log ++ [cb]) <;> simp only [shift_go, shift_fail, append_assoc]

theorem endMessage_shift :
    (endMessage (proc.after pre) p log).1 = (endMessage proc p (pre ++ log)).1 ∧
    pre ++ (endMessage (proc.after pre) p log).2 = (endMessage proc p (pre ++ log)).2 := by
  simp [endMessage, Processor.after]

theorem endHeaders_shift : (endHeaders p log).shift pre = endHeaders p (pre ++ log) := by
  unfold endHeaders
  rcases p.parseTransferEncoding with ⟨p1, _ | e⟩
  · rcases hcl : p1.parseContentLength with ⟨p2, _ | e⟩
    · rcases htr : p2.parseTrailer with ⟨p3, _ | e⟩ <;> simp [hcl, htr, Act.shift]
    · simp [hcl, Act.shift]
  · rfl

theorem onByte_shift {tok : Option Bytes} {c : UInt8} :
    (onByte (proc.after pre) p log tok c).shift pre = onByte proc p (pre ++ log) tok c := by
  unfold onByte
  cases p.state <;>
    simp only [shift_ite, shift_withSlice, shift_withChunkSize, shift_call, shift_go, shift_fail,
      endHeaders_shift, endMessage_shift, append_assoc]
  case statusCode =>
    congr 2
    funext t
    cases atoi t <;> rfl

end Shift

theorem endBody_shift {proc : Processor} {pre log : Log} {p : Fields} :
    (endBody (proc.after pre) p log).1 = (endBody proc p (pre ++ log)).1 ∧
    pre ++ (endBody (proc.after pre) p log).2 = (endBody proc p (pre ++ log)).2 := by
  unfold endBody
  split
  · exact endMessage_shift
  · exact ⟨rfl, rfl⟩

/-! ## Runs -/

/-- Configurations that differ only in lengths that are not read, the first of them with
the calls of `pre` made before. -/
structure Cfg.Same (pre : Log) (k l : Cfg) : Prop where
  p : k.p.Same l.p
  log : k.log = pre ++ l.log
  kept : k.kept = l.kept

/-- The same error, the first with the calls of `pre` made before. -/
structure Stop.Same (pre : Log) (e e' : Stop) : Prop where
  log : e.log = pre ++ e'.log
  err : e.err = e'.err

namespace Cfg

variable {proc : Processor} {pre : Log} {k l : Cfg}

theorem onBody_same {cl : Int} {xs : Bytes} (h : k.Same pre l) (hb : k.p.bodyLen = some cl) :
    VerdictRel (Cfg.Same pre) (Stop.Same pre) (k.onBody proc cl xs)
      (l.onBody (proc.after pre) cl xs) := by
  by_cases hcl : 0 < cl ∧ cl ≤ xs.length
  · have hres : (proc.after pre).result (l.log ++ [.onBody (xs.take cl.toNat)]) =
        proc.result (pre ++ (l.log ++ [.onBody (xs.take cl.toNat)])) := rfl
    rw [onBody_of_le hcl, onBody_of_le hcl, h.log, append_assoc, hres]
    cases proc.result (pre ++ (l.log ++ [.onBody (xs.take cl.toNat)])) with
    | some message => exact .stop ⟨rfl, rfl⟩
    | none =>
      refine .step ⟨?_, ?_, rfl⟩
      · rw [← endBody_shift.1]
        exact (endBody_same h.p hb).1
      · rw [← endBody_shift.2, (endBody_same h.p hb).2]
  · rw [onBody_of_not_le hcl, onBody_of_not_le hcl]
    exact .need

theorem onByte_rel {c : UInt8} (h : k.Same pre l) :
    VerdictRel (Cfg.Same pre) (Stop.Same pre) (k.onByte proc c)
      (l.onByte (proc.after pre) c) := by
  have hs : (Http.onByte (proc.after pre) k.p l.log (some l.kept) c).Same
      (Http.onByte (proc.after pre) l.p l.log (some l.kept) c) := onByte_same h.p
  rw [Cfg.onByte, Cfg.onByte, h.log, h.kept, ← onByte_shift]
  generalize Http.onByte (proc.after pre) k.p l.log (some l.kept) c = a at hs ⊢
  generalize Http.onByte (proc.after pre) l.p l.log (some l.kept) c = b at hs ⊢
  cases hs with
  | go log s hp => exact .step ⟨hp, rfl, rfl⟩
  | fail p q log e => exact .stop ⟨rfl, rfl⟩
  | panic p q log => exact .stop ⟨rfl, rfl⟩

theorem next_same (xs : Bytes) (h : k.Same pre l) :
    VerdictRel (Cfg.Same pre) (Stop.Same pre) ((scanner proc).next k xs)
      ((scanner (proc.after pre)).next l xs) := by
  change VerdictRel _ _ (k.next proc xs) (l.next (proc.after pre) xs)
  have hcloser : l.p.parserCloser = k.p.parserCloser := by
    obtain ⟨_, _, hq, -, -⟩ := h.p
    rw [hq]
    rfl
  cases xs with
  | nil => exact .need
  | cons c rest =>
    cases hpc : k.p.parserCloser with
    | true =>
      rw [next_closer hpc, next_closer (hcloser.trans hpc)]
      exact .need
    | false =>
      have hpc' := hcloser.trans hpc
      cases hb : k.p.bodyLen with
      | some cl =>
        rw [next_body hpc hb, next_body hpc' (h.p.bodyLen.trans hb)]
        exact onBody_same h hb
      | none =>
        rw [next_byte hpc hb, next_byte hpc' (h.p.bodyLen.trans hb)]
        exact onByte_rel h

end Cfg

variable {k : Cfg}

theorem Result.Matches.agree_of_same {proc : Processor} {pre : Log} {l : Cfg} {xs : Bytes}
    {r r' : Result} (h : k.Same pre l) (hr : r.Matches ((scanner proc).run k xs))
    (hr' : r'.Matches ((scanner (proc.after pre)).run l xs)) :
    r.log = pre ++ r'.log ∧ r.err = r'.err := by
  have hrel : OutcomeRel (Cfg.Same pre) (Stop.Same pre) ((scanner proc).run k xs)
      ((scanner (proc.after pre)).run l xs) :=
    Scanner.run_rel (fun xs h => Cfg.next_same xs h) xs h
  generalize (scanner proc).run k xs = o at hr hrel
  generalize (scanner (proc.after pre)).run l xs = o' at hr' hrel
  cases hrel with
  | @ok k' l' left hk =>
    rw [hr.ok k' left rfl, hr'.ok l' left rfl]
    exact ⟨hk.log, rfl⟩
  | error he =>
    obtain ⟨hlog, herr, -⟩ := hr.error _ rfl
    obtain ⟨hlog', herr', -⟩ := hr'.error _ rfl
    exact ⟨by rw [hlog, hlog', he.log], by rw [herr, herr', he.err]⟩

theorem Cfg.Live.same_new (hk : k.Live isClient) (hst : k.p.state = startState isClient) :
    k.Same k.log ((newParser isClient).cfg []).1 := by
  refine ⟨?_, ?_, ?_⟩
  · rw [Parser.cfg_p]
    exact hk.wf.inv.same_newFields hst hk.client hk.closer
  · rw [Parser.cfg_log, append_nil]
  · rw [hk.wf.start (by rw [hst, isStart_startState])]
    cases isClient <;> rfl

/-- What a new parser does with `s`, given to a processor that has received the calls of
`log`. -/
def parseAlone (proc : Processor) (readLimit : Int) (isClient : Bool) (log : Log)
    (s : Bytes) : Result :=
  (newParser isClient).parse (proc.after log) readLimit [] s

theorem parseAlone_matches {proc : Processor} (hproc : proc.NeverUpgrades) (readLimit : Int)
    (isClient : Bool) (log : Log) (s : Bytes) :
    (parseAlone proc readLimit isClient log s).Matches
      ((scanner (proc.after log)).run ((newParser isClient).cfg []).1 s) := by
  have hproc' : (proc.after log).NeverUpgrades := fun _ => hproc _
  have hm := newParser_parse_matches hproc' isClient readLimit s
  cases isClient <;> exact hm

variable {readLimit : Int}

theorem Result.Matches.eq_parseAlone {proc : Processor} {s : Bytes} {r : Result}
    (hproc : proc.NeverUpgrades) (hk : k.Live isClient) (hst : k.p.state = startState isClient)
    (hr : r.Matches ((scanner proc).run k s)) :
    r.log = k.log ++ (parseAlone proc readLimit isClient k.log s).log ∧
      r.err = (parseAlone proc readLimit isClient k.log s).err :=
  hr.agree_of_same (hk.same_new hst) (parseAlone_matches hproc readLimit isClient k.log s)

/-! ## The moments of a run -/

/-- The variables of the loop of `Parse` between two iterations. -/
structure Moment where
  data : Bytes
  fields : Fields
  log : Log
  start : Nat
  i : Nat

/-- The moments of the call of `Parse` for `seg` that follows error-free calls for `segs`
on a new parser. -/
inductive Reached (proc : Processor) (readLimit : Int) (isClient : Bool) (segs : List Bytes)
    (seg : Bytes) : Moment → Prop where
  | call {r : Result} (hr : (newParser isClient).feed proc readLimit [] segs = r)
      (herr : r.err = none) (hseg : seg ≠ []) (hlimit : ¬ r.parser.Exceeds readLimit seg) :
      Reached proc readLimit isClient segs seg
        ⟨r.parser.cache ++ seg, r.parser.toFields, r.log, 0, r.parser.cache.length⟩
  | next {m : Moment} {fields : Fields} {log : Log} {start i : Nat}
      (hm : Reached proc readLimit isClient segs seg m) (hi : m.i < m.data.length)
      (hit : iterate proc m.data m.fields m.log m.start m.i m.data[m.i] =
        .next fields log start i) :
      Reached proc readLimit isClient segs seg ⟨m.data, fields, log, start, i⟩

theorem iterate_next {proc : Processor} {data : Bytes} {start i start' i' : Nat} {input : Bytes}
    {p : Fields} {log : Log} (hal : Aligned data start i k input) (hk : k.WF) (hi : i < data.length)
    (hit : iterate proc data k.p k.log start i data[i] = .next p log start' i') :
    ∃ n k', (scanner proc).next k input = .step n k' ∧ k'.p = p ∧ k'.log = log ∧
      Aligned data start' i' k' (input.drop (n + 1)) := by
  cases input with
  | nil => exact absurd rfl ((hal.lt_iff hk).1 hi)
  | cons c rest =>
    have hf : (iterate proc data k.p k.log start i data[i]).Follows data k (c :: rest)
        ((scanner proc).next k (c :: rest)) := iterate_follows hal hk hi
    rw [hit] at hf
    cases hn : (scanner proc).next k (c :: rest) with
    | need => rw [hn] at hf; cases hf
    | stop e => rw [hn] at hf; cases hf
    | step n k' =>
      rw [hn] at hf
      obtain ⟨_, _, heq, hal'⟩ := hf
      cases heq
      exact ⟨n, k', rfl, rfl, rfl, hal'⟩

variable {segs : List Bytes}

/-- At every moment the scanner is where the loop is: the rest of the run is its run over
the rest of the data and what follows it. -/
theorem Reached.simulated {proc : Processor} {seg : Bytes} {m : Moment} (hproc : proc.NeverUpgrades)
    (h : Reached proc readLimit isClient segs seg m) :
    ∃ k input, Aligned m.data m.start m.i k input ∧ k.Live isClient ∧ k.p = m.fields ∧
      k.log = m.log ∧ ∀ xs, (scanner proc).feed ((newParser isClient).cfg [])
        (segs.flatten ++ (seg ++ xs)) = (scanner proc).run k (input ++ xs) := by
  induction h with
  | @call r hr herr hseg hlimit =>
    subst hr
    obtain ⟨hready, hfeed⟩ :=
      Parser.feed_ready hproc (newParser_ready proc isClient []) herr
    refine ⟨_, _, Parser.aligned_cfg hseg, hready.live, Parser.cfg_p, Parser.cfg_log, fun xs => ?_⟩
    rw [(scanner proc).feed_append trivial, hfeed, append_assoc]
    rfl
  | @next m fields log start i hm hi hit ih =>
    obtain ⟨k, input, hal, hk, hp, hlog, hrun⟩ := ih
    rw [← hp, ← hlog] at hit
    obtain ⟨n, k', hn, hp', hlog', hal'⟩ := iterate_next hal hk.wf hi hit
    refine ⟨k', _, hal', Cfg.live_step hproc hk hn, hp', hlog', fun xs => ?_⟩
    have hlt := (scanner proc).within hn
    have hn' : (scanner proc).next k (input ++ xs) = .step n k' := by
      rw [(scanner proc).stable xs trivial (by rw [hn]; nofun), hn]
    rw [hrun, (scanner proc).run_step hn', drop_append_of_le_length hlt]

theorem Reached.eq_parseAlone {proc : Processor} {seg : Bytes} {m : Moment}
    (hproc : proc.NeverUpgrades) (h : Reached proc readLimit isClient segs seg m)
    (hst : m.fields.state = startState isClient) (later : List Bytes)
    (hlimit : ((newParser isClient).feed proc readLimit [] (segs ++ seg :: later)).err ≠
      some .tooLong) :
    let run := (newParser isClient).feed proc readLimit [] (segs ++ seg :: later)
    let fresh := parseAlone proc readLimit isClient m.log (m.data.drop m.i ++ later.flatten)
    run.log = m.log ++ fresh.log ∧ run.err = fresh.err := by
  obtain ⟨k, input, hal, hk, hp, hlog, hrun⟩ := h.simulated hproc
  have hst' : k.p.state = startState isClient := by rw [hp, hst]
  have hbody : k.p.bodyLen = none := Fields.bodyLen_start (by rw [hst', hk.client])
  have hm : ((newParser isClient).feed proc readLimit [] (segs ++ seg :: later)).Matches
      ((scanner proc).run k (m.data.drop m.i ++ later.flatten)) := by
    have hm := Parser.feed_matches_flatten hproc (newParser_ready proc isClient []) (.inr hlimit)
    rwa [flatten_append, flatten_cons, hrun, ← hal.drop_eq hbody] at hm
  rw [← hlog]
  exact hm.eq_parseAlone hproc hk hst'

theorem Reached.state_of_endMessage {proc : Processor} {seg : Bytes} {m : Moment}
    (hproc : proc.NeverUpgrades) (h : Reached proc readLimit isClient segs seg m) {p : Fields}
    {log : Log} (hend : (m.fields, m.log) = endMessage proc p log) :
    m.fields.state = startState isClient := by
  obtain ⟨k, input, -, hk, hp, -, -⟩ := h.simulated hproc
  have hf : m.fields = p.handleMessage (proc.closer (log ++ [.onComplete])) :=
    congrArg Prod.fst hend
  have hlive : p.state ≠ .close := by
    intro hcl
    refine hk.wf.live ?_
    rw [hp, hf]
    unfold Fields.handleMessage Fields.nextState
    simp only [hcl]
  have hclient := hk.client
  rw [hp, hf, Fields.handleMessage_of_ne hlive] at hclient
  rw [hf, Fields.handleMessage_of_ne hlive, ← hclient]

/-! ## Pipelines -/

/-- The calls made for messages that are parsed each by a new parser, after those of
`log`. -/
def callsOfEach (proc : Processor) (readLimit : Int) (isClient : Bool) : Log → List Bytes → Log
  | log, [] => log
  | log, m :: ms =>
    callsOfEach proc readLimit isClient (log ++ (parseAlone proc readLimit isClient log m).log) ms

/-- Each message, parsed by a new parser, is complete. -/
def AllComplete (proc : Processor) (readLimit : Int) (isClient : Bool) : Log → List Bytes → Prop
  | _, [] => True
  | log, m :: ms =>
    (parseAlone proc readLimit isClient log m).err = none ∧
    (parseAlone proc readLimit isClient log m).parser.state = startState isClient ∧
    AllComplete proc readLimit isClient (log ++ (parseAlone proc readLimit isClient log m).log) ms

theorem Cfg.Live.run_message {proc : Processor} {m : Bytes} (hproc : proc.NeverUpgrades)
    (hk : k.Live isClient) (hst : k.p.state = startState isClient)
    (herr : (parseAlone proc readLimit isClient k.log m).err = none)
    (hend : (parseAlone proc readLimit isClient k.log m).parser.state = startState isClient) :
    ∃ k', (scanner proc).run k m = .ok (k', []) ∧ k'.Live isClient ∧
      k'.p.state = startState isClient ∧
      k'.log = k.log ++ (parseAlone proc readLimit isClient k.log m).log := by
  have hm := parseAlone_matches hproc readLimit isClient k.log m
  have hrel : OutcomeRel (Cfg.Same k.log) (Stop.Same k.log) ((scanner proc).run k m)
      ((scanner (proc.after k.log)).run ((newParser isClient).cfg []).1 m) :=
    Scanner.run_rel (fun xs h => Cfg.next_same xs h) m (hk.same_new hst)
  cases hrun : (scanner proc).run k m with
  | error e =>
    rw [hrun] at hrel
    generalize (scanner (proc.after k.log)).run ((newParser isClient).cfg []).1 m = o at hm hrel
    cases hrel with
    | error he =>
      obtain ⟨-, he', hne⟩ := hm.error _ rfl
      exact absurd (he'.symm.trans herr) hne
  | ok c =>
    rw [hrun] at hrel
    generalize (scanner (proc.after k.log)).run ((newParser isClient).cfg []).1 m = o at hm hrel
    obtain ⟨k', left⟩ := c
    have hk' := Cfg.live_run hproc hk hrun
    cases hrel with
    | @ok _ l _ hsame =>
      rw [hm.ok l left rfl] at hend ⊢
      have hst' : k'.p.state = startState isClient := by
        obtain ⟨_, _, hl, -, -⟩ := hsame.p
        have hend : l.p.state = startState isClient := hend
        rwa [hl] at hend
      have hbody : k'.p.bodyLen = none := Fields.bodyLen_start (by rw [hst', hk'.client])
      rw [Cfg.left_nil_of_run hk'.closer hbody hrun]
      exact ⟨k', rfl, hk', hst', hsame.log⟩

theorem Result.Matches.eq_callsOfEach {proc : Processor} {ms : List Bytes} {s : Bytes} {r : Result}
    (hproc : proc.NeverUpgrades) (hk : k.Live isClient) (hst : k.p.state = startState isClient)
    (hms : AllComplete proc readLimit isClient k.log ms)
    (hr : r.Matches ((scanner proc).run k (ms.flatten ++ s))) :
    let before := callsOfEach proc readLimit isClient k.log ms
    let last := parseAlone proc readLimit isClient before s
    r.log = before ++ last.log ∧ r.err = last.err := by
  induction ms generalizing k with
  | nil => exact hr.eq_parseAlone hproc hk hst
  | cons m ms ih =>
    obtain ⟨herr, hend, hms⟩ := hms
    obtain ⟨k', hrun, hk', hst', hlog⟩ := hk.run_message hproc hst herr hend
    rw [flatten_cons, append_assoc, (scanner proc).run_append trivial, hrun] at hr
    rw [← hlog] at hms
    have hrest := ih hk' hst' hms hr
    rwa [hlog] at hrest

/-- A completed message leaves no trace.  From every moment at which `handleMessage` has
returned, in a run over data that was cut in any way, the rest of the run makes the calls
and has the error of a new parser on the rest of the data; and a pipeline of messages,
whatever follows it, is parsed as each of them alone, one after the other. -/
theorem completed_message_leaves_no_trace (proc : Processor) (readLimit : Int)
    (isClient : Bool) (hproc : proc.NeverUpgrades) :
    (∀ (segs : List Bytes) (seg : Bytes) (later : List Bytes) (m : Moment) (p : Fields)
        (log : Log), Reached proc readLimit isClient segs seg m →
      (m.fields, m.log) = endMessage proc p log →
      let run := (newParser isClient).feed proc readLimit [] (segs ++ seg :: later)
      let fresh := parseAlone proc readLimit isClient m.log (m.data.drop m.i ++ later.flatten)
      run.err ≠ some .tooLong → run.log = m.log ++ fresh.log ∧ run.err = fresh.err) ∧
    ∀ (ms : List Bytes) (s : Bytes) (segs : List Bytes),
      AllComplete proc readLimit isClient [] ms → segs.flatten = ms.flatten ++ s →
      let run := (newParser isClient).feed proc readLimit [] segs
      let before := callsOfEach proc readLimit isClient [] ms
      let last := parseAlone proc readLimit isClient before s
      run.err ≠ some .tooLong → run.log = before ++ last.log ∧ run.err = last.err := by
  refine ⟨?_, ?_⟩
  · intro segs seg later m p log hm hend run fresh hlimit
    exact hm.eq_parseAlone hproc (hm.state_of_endMessage hproc hend) later hlimit
  · intro ms s segs hms hflat run before last hlimit
    have hnew := newParser_ready proc isClient []
    have hmatch := Parser.feed_matches_flatten hproc hnew (.inr hlimit)
    rw [hflat] at hmatch
    have hk := hnew.live
    have hst : ((newParser isClient).cfg []).1.p.state = startState isClient := by
      rw [Parser.cfg_p]
      rfl
    have hrun : ((newParser isClient).feed proc readLimit [] segs).Matches
        ((scanner proc).run ((newParser isClient).cfg []).1 (ms.flatten ++ s)) := by
      cases isClient <;> exact hmatch
    have hlog : ((newParser isClient).cfg []).1.log = [] := Parser.cfg_log
    have hall := hrun.eq_callsOfEach hproc hk hst (by rw [hlog]; exact hms)
    rwa [hlog] at hall

/-- Two requests in one piece of data: what the second leads to does not depend on the
first. -/
theorem completed_message_leaves_no_trace_get :
    let proc : Processor := { result := fun _ => none, closer := fun _ => false }
    let msg := ascii "GET / H\r\n\r\n"
    let calls : Log := [.onMethod (ascii "GET"), .onURL (ascii "/"), .onProto (ascii "H"),
      .onContentLength (-1), .onComplete]
    let m : Moment := ⟨msg ++ msg, { newFields false with contentLength := -1 }, calls, 11, 11⟩
    Reached proc 0 false [] (msg ++ msg) m ∧
      ((newParser false).feed proc 0 [] [msg ++ msg]).log =
        calls ++ (parseAlone proc 0 false calls msg).log := by
  intro proc msg calls m
  have h0 : Reached proc 0 false [] (msg ++ msg) ⟨msg ++ msg, newFields false, [], 0, 0⟩ :=
    .call rfl rfl (by decide) (fun h => Nat.lt_irrefl 0 h.1)
  have h1 := h0.next (by decide) rfl
  have h2 := h1.next (by decide) rfl
  have h3 := h2.next (by decide) rfl
  have h4 := h3.next (by decide) rfl
  have h5 := h4.next (by decide) rfl
  have h6 := h5.next (by decide) rfl
  have h7 := h6.next (by decide) rfl
  have h8 := h7.next (by decide) rfl
  have h9 := h8.next (by decide) rfl
  have h10 := h9.next (by decide) rfl
  have h11 : Reached proc 0 false [] (msg ++ msg) m := h10.next (by decide) rfl
  have hend : (m.fields, m.log) = endMessage proc
      { newFields false with contentLength := -1, state := .headerOverLF } calls.dropLast := rfl
  exact ⟨h11, ((completed_message_leaves_no_trace proc 0 false fun _ => rfl).1 [] (msg ++ msg) []
    m _ _ h11 hend (by decide)).1⟩

end Nbio.Http
