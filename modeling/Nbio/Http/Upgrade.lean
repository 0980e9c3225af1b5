import Nbio.Http.Framing
import Nbio.Http.Segmentation

/-!
# Handing a connection over

`OnComplete` may set the parser's `ParserCloser`, to which all further data belongs.  The loop of
`Parse` sees this in its next iteration and passes on the data from `start`; later calls pass on
their data as a whole.  The scanner of the stream just stops at such a point (`Cfg.next_closer`), so
that what it leaves over is what the `ParserCloser` has to receive.
-/

namespace Nbio.Http

open Nbio.Go Nbio.Lib List

def Callback.isHTTP : Callback → Bool
  | .clean | .closerParse _ => false
  | _ => true

/-- The data that has been passed to the `ParserCloser`. -/
def handedOver (log : Log) : Bytes :=
  log.flatMap fun cb => match cb with
    | .closerParse udata => udata
    | _ => []

theorem handedOver_append (log log' : Log) :
    handedOver (log ++ log') = handedOver log ++ handedOver log' :=
  flatMap_append

theorem handedOver_of_isHTTP {log : Log} (h : ∀ cb ∈ log, cb.isHTTP = true) :
    handedOver log = [] := by
  refine flatMap_eq_nil_iff.2 ?_
  intro cb hcb
  have hcb := h cb hcb
  cases cb with
  | closerParse udata => cases hcb
  | _ => rfl

/-! ## The calls of a parser that is not upgraded -/

/-- The calls are those for messages, and the `ParserCloser` is set between messages only. -/
structure Spoken (p : Fields) (log : Log) : Prop where
  http : ∀ cb ∈ log, cb.isHTTP = true
  upgraded : p.parserCloser = true → p.state.isStart = true

variable {proc : Processor}

section Spoken

variable {p q : Fields} {log : Log}

theorem Spoken.same (h : Spoken p log) (hp : p.parserCloser = false)
    (hq : q.parserCloser = p.parserCloser) : Spoken q log := by
  refine ⟨h.http, ?_⟩
  intro hup
  rw [hq, hp] at hup
  cases hup

theorem Spoken.call (h : Spoken p log) {cb : Callback} (hcb : cb.isHTTP = true) :
    Spoken p (log ++ [cb]) := by
  refine ⟨?_, h.upgraded⟩
  intro c hc
  rcases mem_append.1 hc with hc | hc
  · exact h.http c hc
  · rw [mem_singleton.1 hc]
    exact hcb

theorem Fields.nextState_closer (p : Fields) (s : State) :
    (p.nextState s).parserCloser = p.parserCloser := by
  unfold Fields.nextState
  split
  · rfl
  · rfl

theorem Spoken.next {s : State} (h : Spoken p log) (hp : p.parserCloser = false)
    (hq : p.Stands q) : Spoken (q.nextState s) log :=
  h.same hp ((q.nextState_closer s).trans hq.parserCloser)

theorem spoken_endMessage (h : Spoken p log) (hne : p.state ≠ .close) :
    Spoken (endMessage proc p log).1 (endMessage proc p log).2 := by
  refine ⟨(h.call rfl).http, ?_⟩
  intro _
  rw [endMessage, Fields.handleMessage_of_ne hne]
  exact isStart_startState p.isClient

theorem Callback.isHTTP_of_isPiece {cb : Callback} (h : cb.isPiece = true) : cb.isHTTP = true := by
  cases cb with
  | clean => cases h
  | closerParse udata => cases h
  | _ => rfl

theorem ByteStep.spoken {c : UInt8} {log' : Log} (hstep : ByteStep proc p log c q log')
    (h : Spoken p log) (hp : p.parserCloser = false) :
    Spoken q log' := by
  cases hstep with
  | stay hq => exact h.same hp hq.parserCloser
  | move hq hs => exact h.next hp hq.toStands
  | call hq hs hcb => exact (h.call (Callback.isHTTP_of_isPiece hcb)).next hp hq.toStands
  | line hin value => exact (h.call rfl).next hp ⟨rfl, rfl⟩
  | blank hq l => exact (h.call rfl).next hp hq
  | complete hq hne hc =>
    refine spoken_endMessage (h.same hp hq.parserCloser) ?_
    rw [hq.state]
    exact hne

theorem endBody_spoken (proc : Processor) (h : Spoken p log) (hp : p.parserCloser = false)
    (hne : p.state ≠ .close) : Spoken (endBody proc p log).1 (endBody proc p log).2 := by
  unfold endBody
  split
  · exact spoken_endMessage h hne
  · exact h.same hp (p.nextState_closer _)

end Spoken

/-! ## The scanner -/

structure Cfg.Proper (k : Cfg) : Prop where
  wf : k.WF
  spoken : Spoken k.p k.log

namespace Cfg

variable {proc : Processor} {k k' : Cfg} {xs left : Bytes}

theorem proper_step (hk : k.Proper) {n : Nat} (h : (scanner proc).next k xs = .step n k') :
    k'.Proper := by
  refine ⟨wf_step hk.wf h, ?_⟩
  obtain ⟨hpc, ⟨cl, -, -, -, -, hp, hlog, -⟩ | ⟨c, rest, s, -, -, -, hgo, -⟩⟩ := next_cases h
  · rw [hp, hlog]
    exact endBody_spoken proc (hk.spoken.call rfl) hpc hk.wf.live
  · have hbyte := onByte_does proc k.p k.log (some k.kept) c
    rw [hgo] at hbyte
    exact ByteStep.spoken hbyte hk.spoken hpc

theorem proper_run (hk : k.Proper) (h : (scanner proc).run k xs = .ok (k', left)) : k'.Proper :=
  (scanner proc).run_inv (fun hk hn => proper_step hk hn) hk h

theorem Proper.kept_nil (hk : k.Proper) (hup : k.p.parserCloser = true) : k.kept = [] :=
  hk.wf.start (hk.spoken.upgraded hup)

end Cfg

theorem newParser_proper (isClient : Bool) : ((newParser isClient).cfg []).1.Proper := by
  refine ⟨(newParser_wf isClient).cfg, ?_⟩
  rw [Parser.cfg_p, Parser.cfg_log]
  exact ⟨nofun, nofun⟩

/-! ## A call of `Parse` -/

/-- A parser holds what the scanner holds, or all that the scanner has left over has been handed
over. -/
inductive Parser.At (p : Parser) (log : Log) (k : Cfg) (left : Bytes) : Prop where
  | parsing (hpc : k.p.parserCloser = false) (hp : p = k.waiting left) (hlog : log = k.log)
  | upgraded (hpc : k.p.parserCloser = true) (hp : p = k.waiting []) (handed : Log)
      (hlog : log = k.log ++ handed) (hquiet : handed.filter Callback.isHTTP = [])
      (hleft : handedOver handed = left)

def Processor.CloserAccepts (proc : Processor) : Prop :=
  ∀ log udata, proc.result (log ++ [.closerParse udata]) = none

namespace Parser

variable {proc : Processor} {readLimit : Int} {p : Parser} {log : Log} {k k' : Cfg}
  {left left' data seg : Bytes}

theorem At.wf (h : p.At log k left) (hk : k.Proper) (hset : (scanner proc).Settled (k, left)) :
    p.WF := by
  cases h with
  | parsing hpc hp hlog =>
    rw [hp]
    exact Cfg.wf_waiting hk.wf fun hb => Cfg.left_nil_of_run hpc hb hset
  | upgraded hpc hp handed hlog hquiet hleft =>
    rw [hp]
    exact Cfg.wf_waiting hk.wf fun _ => rfl

theorem At.pending (h : p.At log k left) : p.initialReadDeadlinePending = false := by
  cases h with
  | parsing hpc hp hlog => rw [hp, Cfg.waiting]
  | upgraded hpc hp handed hlog hquiet hleft => rw [hp, Cfg.waiting]

theorem At.cache_eq (h : p.At log k left) (hk : k.Proper) :
    p.cache = if k.p.parserCloser then [] else k.kept ++ left := by
  cases h with
  | parsing hpc hp hlog =>
    rw [hp, hpc]
    exact Cfg.cache_waiting
  | upgraded hpc hp handed hlog hquiet hleft =>
    rw [hp, hpc, Cfg.cache_waiting, hk.kept_nil hpc]
    rfl

theorem leave_at (hcloser : proc.CloserAccepts) (hk : k.Proper) (hsuf : k.kept ++ left <:+ data)
    (hdata : data ≠ []) (hcached : p.bytesCached = some data ∨ p.bytesCached = none)
    (hpend : p.initialReadDeadlinePending = false) :
    let r := leave proc p data (loopEnd data (.ok (k, left)))
    r.err = none ∧ r.parser.At r.log k left := by
  by_cases hup : k.p.parserCloser = true ∧ left ≠ []
  · have hkept := hk.kept_nil hup.1
    rw [hkept] at hsuf
    have hstart : data.drop (data.length - left.length) = left :=
      (suffix_iff_eq_drop.1 hsuf).symm
    rw [loopEnd, if_pos hup, hkept, length_nil, Nat.zero_add]
    dsimp only [leave, upgrader]
    rw [hstart, hcloser]
    refine ⟨rfl, .upgraded hup.1 ?_ [.clean, .closerParse left] ?_ rfl ?_⟩
    · unfold Cfg.waiting
      rw [hkept, hpend]
      rfl
    · rw [append_assoc]
      rfl
    · exact append_nil left
  · have hkeep : { p with toFields := k.p }.keepLeft data
        (data.length - (k.kept.length + left.length)) = k.waiting left :=
      keepLeft_eq rfl hcached hdata hpend hsuf
    rw [loopEnd, if_neg hup, leave, hkeep]
    refine ⟨rfl, ?_⟩
    cases hpc : k.p.parserCloser with
    | false => exact .parsing hpc rfl rfl
    | true =>
      have hnil : left = [] := by
        by_contra hne
        exact hup ⟨hpc, hne⟩
      rw [hnil]
      exact .upgraded hpc rfl [] (append_nil _).symm rfl rfl

theorem parse_upgraded (hlive : p.state ≠ .close) (hpc : p.parserCloser = true)
    (hcached : p.bytesCached = none) (hpend : p.initialReadDeadlinePending = false)
    (hseg : seg ≠ []) : p.parse proc readLimit log seg = upgrader proc p log seg 0 := by
  have hinit : p.initReadDeadline = p := by
    obtain ⟨f, cached, pending⟩ := p
    subst hpend
    rfl
  rw [parse, if_neg hlive, hinit, if_neg hseg, hcached]
  simp [hpc]

theorem parse_at (hcloser : proc.CloserAccepts) (hk : k.Proper)
    (hset : (scanner proc).Settled (k, left)) (hat : p.At log k left)
    (hlimit : seg ≠ [] → ¬ p.Exceeds readLimit seg)
    (hfeed : (scanner proc).feed (k, left) seg = .ok (k', left')) :
    let r := p.parse proc readLimit log seg
    r.err = none ∧ r.parser.At r.log k' left' := by
  have hwf := hat.wf hk hset
  have hpend := hat.pending
  by_cases hseg : seg = []
  · rw [hseg, Scanner.feed, append_nil, hset] at hfeed
    cases hfeed
    rw [hseg, parse_nil hwf.live hpend]
    exact ⟨rfl, hat⟩
  cases hat with
  | parsing hpc hp hlog =>
    subst hp hlog
    have hleft : k.p.bodyLen = none → left = [] := fun hb => Cfg.left_nil_of_run hpc hb hset
    have hrun : (scanner proc).run k (left ++ seg) = .ok (k', left') := hfeed
    have hsuf := Cfg.suffix_run hk.wf hrun
    have hcache : (k.waiting left).cache = k.kept ++ left := Cfg.cache_waiting
    rw [← append_assoc, ← hcache] at hsuf
    rw [parse_eq hwf hpc hseg (hlimit hseg), Cfg.cfg_waiting hk.wf hleft, hrun]
    exact leave_at hcloser (Cfg.proper_run hk hrun) hsuf (by simp [hseg]) (loaded_cached hwf) rfl
  | upgraded hpc hp handed hlog hquiet hleft =>
    have hneed : (scanner proc).feed (k, left) seg = .ok (k, left ++ seg) :=
      (scanner proc).run_need (Cfg.next_closer hpc)
    rw [hneed] at hfeed
    cases hfeed
    have hkept := hk.kept_nil hpc
    have hcached : p.bytesCached = none := by
      rw [hp, Cfg.waiting, hkept]
      rfl
    have hpc' : p.parserCloser = true := by
      rw [hp]
      exact hpc
    rw [parse_upgraded hwf.live hpc' hcached hpend hseg]
    dsimp only [upgrader]
    rw [hcloser, drop_zero]
    refine ⟨rfl, .upgraded hpc ?_ (handed ++ [.closerParse seg]) ?_ ?_ ?_⟩
    · rw [← hcached]
      exact hp
    · rw [hlog, append_assoc]
    · rw [filter_append, hquiet]
      rfl
    · rw [handedOver_append, hleft]
      exact congrArg (left ++ ·) (append_nil seg)

theorem At.cache_le {p' : Parser} {log' : Log} (hat : p.At log k left) (hat' : p'.At log' k' left')
    (hk : k.Proper) (hfeed : (scanner proc).feed (k, left) seg = .ok (k', left')) :
    p'.cache.length ≤ p.cache.length + seg.length := by
  have hrun : (scanner proc).run k (left ++ seg) = .ok (k', left') := hfeed
  have hsuf := (Cfg.suffix_run hk.wf hrun).length_le
  rw [hat'.cache_eq (Cfg.proper_run hk hrun), hat.cache_eq hk]
  cases hpc : k.p.parserCloser with
  | true =>
    rw [(scanner proc).run_need (Cfg.next_closer hpc)] at hrun
    cases hrun
    simp [hpc]
  | false =>
    split
    · exact Nat.zero_le _
    · simp only [length_append, Bool.false_eq_true, ↓reduceIte] at hsuf ⊢
      omega

theorem feed_at (hcloser : proc.CloserAccepts) {segs : List Bytes} (hk : k.Proper)
    (hset : (scanner proc).Settled (k, left)) (hat : p.At log k left)
    (hfeed : segs.foldlM (scanner proc).feed (k, left) = .ok (k', left'))
    (hlimit : InLimit proc readLimit p log segs) :
    let r := p.feed proc readLimit log segs
    r.err = none ∧ r.parser.At r.log k' left' := by
  induction segs generalizing p log k left with
  | nil =>
    cases hfeed
    exact ⟨rfl, hat⟩
  | cons seg segs ih =>
    have hin := hlimit.not_exceeds (hat.wf hk hset)
    rw [foldlM_cons] at hfeed
    cases hone : (scanner proc).feed (k, left) seg with
    | error e =>
      rw [hone] at hfeed
      cases hfeed
    | ok c =>
      rw [hone] at hfeed
      obtain ⟨herr, hat'⟩ := parse_at hcloser hk hset hat hin hone
      have hcache := hat.cache_le hat' hk hone
      have hlimit' : InLimit proc readLimit (p.parse proc readLimit log seg).parser
          (p.parse proc readLimit log seg).log segs := by
        refine hlimit.imp ?_ ?_
        · intro hlen
          rw [flatten_cons, length_append] at hlen
          omega
        · intro hlong
          rw [feed] at hlong
          simp only [herr] at hlong
          exact hlong
      rw [feed]
      simp only [herr]
      exact ih (Cfg.proper_run hk hone) ((scanner proc).settled_feed hone) hat' hfeed hlimit'

end Parser

/-! ## Streams with an upgrade -/

/-- The stream `s` consists of messages without an error, and the `OnComplete` of the last one is
the first to set the `ParserCloser`. -/
structure EndsInUpgrade (proc : Processor) (isClient : Bool) (s : Bytes) : Prop where
  err : ((newParser isClient).parse proc 0 [] s).err = none
  last : ((newParser isClient).parse proc 0 [] s).log.getLast? = some .onComplete
  closer : ((newParser isClient).parse proc 0 [] s).parser.parserCloser = true

theorem newParser_cfg (isClient : Bool) (log : Log) :
    (newParser isClient).cfg log = (⟨newFields isClient, log, []⟩, []) := by
  cases isClient <;> rfl

/-- The scanner consumes all of such a stream, and nothing behind it. -/
theorem EndsInUpgrade.run {isClient : Bool} {s : Bytes} (h : EndsInUpgrade proc isClient s) :
    ∃ k, (scanner proc).run ⟨newFields isClient, [], []⟩ s = .ok (k, []) ∧
      k.p.parserCloser = true ∧ ((newParser isClient).parse proc 0 [] s).log = k.log := by
  obtain ⟨herr, hlast, hcloser⟩ := h
  have hproper := newParser_proper isClient
  rw [newParser_cfg] at hproper
  have hs : s ≠ [] := by
    rintro rfl
    rw [Parser.parse_nil (newParser_wf isClient).live rfl] at hlast
    cases hlast
  have hlimit : ¬ (newParser isClient).Exceeds 0 s := fun hex => Nat.lt_irrefl 0 hex.1
  have hparse : (newParser isClient).parse proc 0 [] s = _ :=
    Parser.parse_eq (newParser_wf isClient) rfl hs hlimit
  rw [newParser_cfg, nil_append] at hparse
  rw [hparse] at herr hlast hcloser ⊢
  cases hrun : (scanner proc).run ⟨newFields isClient, [], []⟩ s with
  | error e =>
    have hne := Cfg.stop_run hproper.wf hrun
    rw [hrun] at herr
    obtain ⟨f, log, err⟩ := e
    cases err with
    | none => exact absurd rfl hne
    | some e => cases herr
  | ok c =>
    obtain ⟨k, left⟩ := c
    rw [hrun] at hlast hcloser
    by_cases hup : k.p.parserCloser = true ∧ left ≠ []
    · rw [loopEnd, if_pos hup] at hlast
      simp [Parser.leave, Parser.upgrader] at hlast
    · rw [loopEnd, if_neg hup, Parser.leave, Parser.keepLeft_fields] at hcloser
      have hnil : left = [] := by
        by_contra hne
        exact hup ⟨hcloser, hne⟩
      refine ⟨k, by rw [hnil], hcloser, ?_⟩
      rw [loopEnd, if_neg hup, Parser.leave]

/-- Nothing is lost when a connection is upgraded.  However a stream of messages that ends in an
upgrade, and what follows it, is cut into calls of `Parse` within the `ReadLimit`: the
`ParserCloser` receives what follows, all of it and nothing else, and the calls for messages are
those of the messages alone. -/
theorem upgrade_hands_over_rest {proc : Processor} {isClient : Bool} {readLimit : Int}
    {s t : Bytes} {segs : List Bytes} (hs : EndsInUpgrade proc isClient s)
    (hcloser : proc.CloserAccepts) (hcut : segs.flatten = s ++ t)
    (hlimit : Parser.InLimit proc readLimit (newParser isClient) [] segs) :
    let r := (newParser isClient).feed proc readLimit [] segs
    r.err = none ∧ handedOver r.log = t ∧
      r.log.filter Callback.isHTTP = ((newParser isClient).parse proc 0 [] s).log := by
  obtain ⟨k, hrun, hpc, hlog⟩ := hs.run
  have hproper := newParser_proper isClient
  rw [newParser_cfg] at hproper
  have hset : (scanner proc).Settled (⟨newFields isClient, [], []⟩, []) :=
    (scanner proc).settled_nil _
  have hfeed : segs.foldlM (scanner proc).feed (⟨newFields isClient, [], []⟩, []) = .ok (k, t) := by
    rw [(scanner proc).foldlM_feed trivial hset, hcut, Scanner.feed, nil_append,
      (scanner proc).run_append trivial, hrun]
    exact (scanner proc).run_need (Cfg.next_closer hpc)
  have hat : (newParser isClient).At [] ⟨newFields isClient, [], []⟩ [] := .parsing rfl rfl rfl
  obtain ⟨herr, hend⟩ := Parser.feed_at hcloser hproper hset hat hfeed hlimit
  have hhttp := (Cfg.proper_run hproper hrun).spoken.http
  refine ⟨herr, ?_⟩
  cases hend with
  | parsing hpc' => cases hpc.symm.trans hpc'
  | upgraded _ _ handed hhanded hquiet hleft =>
    rw [hhanded, hlog, handedOver_append, handedOver_of_isHTTP hhttp, hleft, filter_append,
      hquiet, append_nil, filter_eq_self.2 hhttp]
    exact ⟨rfl, rfl⟩

/-- A request with a body, and three bytes behind it; one of the cuts is inside the body. -/
theorem upgrade_hands_over_rest_post :
    let proc : Processor := { result := fun _ => none, closer := fun _ => true }
    let s := ascii "POST / H\r\nContent-Length: 2\r\n\r\nab"
    let segs := [ascii "POST / H\r\nContent-Length: 2\r\n\r\na", ascii "bxy", ascii "z"]
    EndsInUpgrade proc false s ∧ segs.flatten = s ++ ascii "xyz" ∧
      handedOver ((newParser false).feed proc 100 [] segs).log = ascii "xyz" := by
  intro proc s segs
  have hs : EndsInUpgrade proc false s := by
    constructor <;> decide
  have hcut : segs.flatten = s ++ ascii "xyz" := by decide
  refine ⟨hs, hcut, ?_⟩
  exact (upgrade_hands_over_rest hs (fun _ _ => rfl) hcut (.inl (by decide))).2.1

end Nbio.Http
