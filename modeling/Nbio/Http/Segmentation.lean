import Nbio.Http.Stream

/-!
# How a stream is cut does not matter

The data handler of a connection calls `Parse` once for each piece of data it reads, and where one
read ends and the next begins is up to the network.  As long as the parser is not closed, not
upgraded and within the `ReadLimit`, feeding it piece by piece makes the calls, and ends with the
error or in the state, of one call with all the data (`feed_segments_eq_parse`).
-/

namespace Nbio.Http

open Nbio.Go Nbio.Lib List

/-- A processor that never sets the `ParserCloser`. -/
def Processor.NeverUpgrades (proc : Processor) : Prop := ∀ log, proc.closer log = false

/-! ## Runs of a parser that is not upgraded -/

/-- A well-formed configuration of a server's or a client's parser that has not been
upgraded. -/
structure Cfg.Live (isClient : Bool) (k : Cfg) : Prop where
  wf : k.WF
  closer : k.p.parserCloser = false
  client : k.p.isClient = isClient

namespace Cfg

variable {proc : Processor} {isClient : Bool} {k k' : Cfg} {xs left : Bytes}

theorem live_step (hproc : proc.NeverUpgrades) (hk : k.Live isClient) {n : Nat}
    (h : (scanner proc).next k xs = .step n k') : k'.Live isClient := by
  obtain ⟨s, hs, -⟩ := next_spec hk.wf h
  refine ⟨wf_step hk.wf h, ?_, hs.isClient.trans hk.client⟩
  rcases hs.closer with hc | ⟨log, hc⟩
  · exact hc.trans hk.closer
  · rw [hproc log] at hc
    cases hc

theorem live_run (hproc : proc.NeverUpgrades) (hk : k.Live isClient)
    (h : (scanner proc).run k xs = .ok (k', left)) : k'.Live isClient :=
  (scanner proc).run_inv (fun hk hn => live_step hproc hk hn) hk h

theorem suffix_run (hk : k.WF) (h : (scanner proc).run k xs = .ok (k', left)) :
    k'.kept ++ left <:+ k.kept ++ xs := by
  have hinv := (scanner proc).run_inv (P := fun l ys => l.WF ∧ l.kept ++ ys <:+ k.kept ++ xs)
    (fun hl hn => ⟨wf_step hl.1 hn, (suffix_step hl.1 hn).trans hl.2⟩)
    ⟨hk, suffix_rfl⟩ h
  exact hinv.2

theorem stop_run (hk : k.WF) {e : Stop} (h : (scanner proc).run k xs = .error e) :
    e.err ≠ none :=
  (scanner proc).run_error
    (fun hk hn => wf_step hk hn) (fun hk hn => next_stop hk hn) hk h

theorem left_nil_of_run (hk : k'.p.parserCloser = false) (hb : k'.p.bodyLen = none)
    (h : (scanner proc).run k xs = .ok (k', left)) : left = [] := by
  rcases (scanner proc).run_waits h with hnil | hneed
  · exact hnil
  · cases left with
    | nil => rfl
    | cons c rest =>
      have hn : k'.next proc (c :: rest) = .need := hneed
      rw [next_byte hk hb, Cfg.onByte] at hn
      split at hn <;> cases hn

theorem cache_waiting : (k.waiting left).cache = k.kept ++ left := by
  unfold Parser.cache Cfg.waiting
  split
  · next h => exact h.symm
  · rfl

theorem wf_waiting (hk : k.WF) (hleft : k.p.bodyLen = none → left = []) :
    (k.waiting left).WF where
  inv := hk.inv
  live := hk.live
  body := fun cl hb => (hk.body cl hb).1
  start := fun hst => by
    have hb : k.p.bodyLen = none := by
      refine Fields.bodyLen_of_isByte ?_
      have hst : k.p.state.isStart = true := hst
      cases hstate : k.p.state <;> rw [hstate] at hst <;> first | rfl | cases hst
    unfold Cfg.waiting
    rw [hk.start hst, hleft hb]
    rfl
  cached := by
    unfold Cfg.waiting
    split
    · nofun
    · next h => exact fun hs => h (Option.some.inj hs)

theorem cfg_waiting (hk : k.WF) (hleft : k.p.bodyLen = none → left = []) :
    (k.waiting left).cfg k.log = (k, left) := by
  obtain ⟨p, log, kept⟩ := k
  cases hb : p.bodyLen with
  | none =>
    have hnil := hleft hb
    subst hnil
    rw [Parser.cfg, cache_waiting, append_nil]
    simp only [Cfg.waiting, hb]
  | some cl =>
    have hkept : kept = [] := (hk.body cl hb).2
    subst hkept
    rw [Parser.cfg, cache_waiting, nil_append]
    simp only [Cfg.waiting, hb]

end Cfg

/-! ## Sequences of calls -/

/-- A parser between two calls of an error-free run without an upgrade. -/
structure Parser.Ready (proc : Processor) (isClient : Bool) (p : Parser) (log : Log) : Prop where
  wf : p.WF
  pending : p.initialReadDeadlinePending = false
  closer : p.parserCloser = false
  client : p.isClient = isClient
  settled : (scanner proc).Settled (p.cfg log)

theorem newParser_ready (proc : Processor) (isClient : Bool) (log : Log) :
    (newParser isClient).Ready proc isClient log where
  wf := newParser_wf isClient
  pending := rfl
  closer := rfl
  client := rfl
  settled := by cases isClient <;> exact (scanner proc).settled_nil _

/-- What `Parse` gives for an outcome of the scanner that is not an upgrade. -/
structure Result.Matches (r : Result) (o : Except Stop (Cfg × Bytes)) : Prop where
  ok : ∀ k left, o = .ok (k, left) →
    r = { parser := k.waiting left, log := k.log, err := none, recovered := false }
  error : ∀ e, o = .error e → r.log = e.log ∧ r.err = e.err ∧ e.err ≠ none

namespace Parser

variable {proc : Processor} {isClient : Bool} {readLimit : Int} {p : Parser} {log : Log}

theorem Ready.live (h : p.Ready proc isClient log) : (p.cfg log).1.Live isClient :=
  ⟨h.wf.cfg, by rw [cfg_p]; exact h.closer, by rw [cfg_p]; exact h.client⟩

theorem waiting_cfg (hp : p.WF) (hpend : p.initialReadDeadlinePending = false) :
    (p.cfg log).1.waiting (p.cfg log).2 = p := by
  have hc := hp.cached
  unfold Cfg.waiting
  rw [cfg_bytes, cfg_p]
  obtain ⟨f, cached, pending⟩ := p
  subst hpend
  cases cached with
  | none => rfl
  | some b =>
    have hb : b ≠ [] := fun h => hc (congrArg some h)
    exact congrArg (fun c => Parser.mk f c false) (if_neg hb)

theorem matches_cfg (hr : p.Ready proc isClient log) :
    Result.Matches { parser := p, log, err := none, recovered := false } (.ok (p.cfg log)) := by
  have hpars : (p.cfg log).1.waiting (p.cfg log).2 = p := waiting_cfg hr.wf hr.pending
  have hlog : (p.cfg log).1.log = log := cfg_log
  refine ⟨fun k left h => ?_, fun e h => ?_⟩
  · have hc : p.cfg log = (k, left) := Except.ok.inj h
    rw [hc] at hpars hlog
    rw [hpars, hlog]
  · cases h

theorem ready_of_run {k k' : Cfg} {xs left : Bytes} (hproc : proc.NeverUpgrades)
    (hk : k.Live isClient) (h : (scanner proc).run k xs = .ok (k', left)) :
    (k'.waiting left).Ready proc isClient k'.log := by
  have hk' := Cfg.live_run hproc hk h
  have hleft : k'.p.bodyLen = none → left = [] := fun hb => Cfg.left_nil_of_run hk'.closer hb h
  refine ⟨Cfg.wf_waiting hk'.wf hleft, rfl, hk'.closer, hk'.client, ?_⟩
  rw [Cfg.cfg_waiting hk'.wf hleft]
  exact (scanner proc).run_settled h

theorem leave_matches {data : Bytes} {k : Cfg} {input : Bytes} (hproc : proc.NeverUpgrades)
    (hk : k.Live isClient) (hsuf : k.kept ++ input <:+ data) (hdata : data ≠ [])
    (hcached : p.bytesCached = some data ∨ p.bytesCached = none)
    (hpend : p.initialReadDeadlinePending = false) :
    (leave proc p data (loopEnd data ((scanner proc).run k input))).Matches
      ((scanner proc).run k input) := by
  refine ⟨fun k' left h => ?_, fun e h => ?_⟩
  · have hsuf' := (Cfg.suffix_run hk.wf h).trans hsuf
    have hno : ¬ (k'.p.parserCloser = true ∧ left ≠ []) := by
      rw [(Cfg.live_run hproc hk h).closer]
      nofun
    have hkeep : { p with toFields := k'.p }.keepLeft data
        (data.length - (k'.kept.length + left.length)) = k'.waiting left :=
      keepLeft_eq rfl hcached hdata hpend hsuf'
    rw [h, loopEnd, if_neg hno, leave, hkeep]
  · have herr := Cfg.stop_run hk.wf h
    obtain ⟨f, log', err⟩ := e
    cases err with
    | none => exact absurd rfl herr
    | some e =>
      rw [h]
      exact ⟨rfl, rfl, herr⟩

theorem parse_matches {data : Bytes} (hproc : proc.NeverUpgrades)
    (hr : p.Ready proc isClient log) (hlimit : data ≠ [] → ¬ p.Exceeds readLimit data) :
    (p.parse proc readLimit log data).Matches ((scanner proc).feed (p.cfg log) data) := by
  by_cases hdata : data = []
  · rw [hdata, parse_nil hr.wf.live hr.pending, Scanner.feed, append_nil, hr.settled]
    exact matches_cfg hr
  · rw [parse_eq hr.wf hr.closer hdata (hlimit hdata)]
    refine leave_matches hproc hr.live ⟨[], ?_⟩ (by simp [hdata]) (loaded_cached hr.wf) rfl
    rw [nil_append, ← append_assoc, cfg_bytes]

/-- The `ReadLimit` does not get in the way: it is at least the length of all the data, or
the calls made just do not fail for it. -/
def InLimit (proc : Processor) (readLimit : Int) (p : Parser) (log : Log)
    (segs : List Bytes) : Prop :=
  ((p.cache.length + segs.flatten.length : Nat) : Int) ≤ readLimit ∨
    (p.feed proc readLimit log segs).err ≠ some .tooLong

theorem InLimit.not_exceeds {seg : Bytes} {segs : List Bytes} (hp : p.WF)
    (h : InLimit proc readLimit p log (seg :: segs)) (hseg : seg ≠ []) :
    ¬ p.Exceeds readLimit seg := by
  intro hex
  rcases h with hlen | herr
  · have hlt := hex.2.2
    rw [flatten_cons, length_append] at hlen
    omega
  · have hlong : (p.parse proc readLimit log seg).err = some .tooLong :=
      parse_exceeds hp hseg hex
    refine herr ?_
    rw [feed]
    simp only [hlong]

variable (hproc : proc.NeverUpgrades) (hr : p.Ready proc isClient log)

include hproc hr

theorem feed_matches {segs : List Bytes} (hlimit : InLimit proc readLimit p log segs) :
    (p.feed proc readLimit log segs).Matches
      (segs.foldlM (scanner proc).feed (p.cfg log)) := by
  induction segs generalizing p log with
  | nil => exact matches_cfg hr
  | cons seg segs ih =>
    have hm : (p.parse proc readLimit log seg).Matches ((scanner proc).feed (p.cfg log) seg) :=
      parse_matches hproc hr (hlimit.not_exceeds hr.wf)
    rw [InLimit, feed] at hlimit
    rw [feed, foldlM_cons]
    cases h : (scanner proc).feed (p.cfg log) seg with
    | error e =>
      obtain ⟨hlog, herr, hne⟩ := hm.error e h
      obtain ⟨err, herr'⟩ := Option.ne_none_iff_exists'.1 hne
      simp only [herr, herr']
      refine ⟨fun k left he => ?_, fun e' he => ?_⟩
      · cases he
      · cases he
        exact ⟨hlog, herr, hne⟩
    | ok c =>
      obtain ⟨k, left⟩ := c
      have hr' : (k.waiting left).Ready proc isClient k.log := ready_of_run hproc hr.live h
      have hleft : k.p.bodyLen = none → left = [] :=
        fun hb => Cfg.left_nil_of_run hr'.closer hb h
      have hlen := (Cfg.suffix_run hr.live.wf h).length_le
      rw [hm.ok k left h] at hlimit ⊢
      have hlimit' : InLimit proc readLimit (k.waiting left) k.log segs := by
        rcases hlimit with hl | hl
        · -- what is cached now is part of what was cached or has been fed
          left
          rw [← append_assoc, cfg_bytes] at hlen
          rw [Cfg.cache_waiting]
          simp only [flatten_cons, length_append] at hl hlen ⊢
          omega
        · exact .inr hl
      have hm' : ((k.waiting left).feed proc readLimit k.log segs).Matches
          (segs.foldlM (scanner proc).feed ((k.waiting left).cfg k.log)) := ih hr' hlimit'
      rwa [Cfg.cfg_waiting (Cfg.live_run hproc hr.live h).wf hleft] at hm'

theorem feed_matches_flatten {segs : List Bytes} (hlimit : InLimit proc readLimit p log segs) :
    (p.feed proc readLimit log segs).Matches
      ((scanner proc).feed (p.cfg log) segs.flatten) := by
  rw [← (scanner proc).foldlM_feed trivial hr.settled]
  exact feed_matches hproc hr hlimit

theorem feed_ready {segs : List Bytes} (herr : (p.feed proc readLimit log segs).err = none) :
    let r := p.feed proc readLimit log segs
    r.parser.Ready proc isClient r.log ∧
      (scanner proc).feed (p.cfg log) segs.flatten = .ok (r.parser.cfg r.log) := by
  have hlimit : InLimit proc readLimit p log segs := .inr (by rw [herr]; nofun)
  have hm := feed_matches_flatten hproc hr hlimit
  cases h : (scanner proc).feed (p.cfg log) segs.flatten with
  | error e =>
    obtain ⟨-, he, hne⟩ := hm.error e h
    exact absurd (he.symm.trans herr) hne
  | ok c =>
    obtain ⟨k, left⟩ := c
    have hr' : (k.waiting left).Ready proc isClient k.log := ready_of_run hproc hr.live h
    have hleft : k.p.bodyLen = none → left = [] := fun hb => Cfg.left_nil_of_run hr'.closer hb h
    rw [hm.ok k left h]
    refine ⟨hr', congrArg Except.ok ?_⟩
    exact (Cfg.cfg_waiting (Cfg.live_run hproc hr.live h).wf hleft).symm

end Parser

theorem newParser_parse_matches {proc : Processor} (hproc : proc.NeverUpgrades)
    (isClient : Bool) (readLimit : Int) (data : Bytes) :
    ((newParser isClient).parse proc readLimit [] data).Matches
      ((scanner proc).feed ((newParser isClient).cfg []) data) :=
  Parser.parse_matches hproc (newParser_ready proc isClient []) fun _ h => Nat.lt_irrefl 0 h.1

theorem Result.Matches.agree {r r' : Result} {o : Except Stop (Cfg × Bytes)}
    (h : r.Matches o) (h' : r'.Matches o) :
    r.log = r'.log ∧ r.err = r'.err ∧ (r'.err = none → r = r') := by
  cases o with
  | error e =>
    obtain ⟨hlog, herr, hne⟩ := h.error e rfl
    obtain ⟨hlog', herr', -⟩ := h'.error e rfl
    exact ⟨hlog.trans hlog'.symm, herr.trans herr'.symm, fun hn => absurd (herr'.symm.trans hn) hne⟩
  | ok c =>
    rw [h.ok c.1 c.2 rfl, h'.ok c.1 c.2 rfl]
    exact ⟨rfl, rfl, fun _ => rfl⟩

/-- However a stream is cut into pieces, `Parse` called for one piece after the other, up to
the first error, makes the calls of one `Parse` of the whole stream and ends with its error.
Without an error the parser is left as by that one `Parse`, cached bytes included. -/
theorem feed_segments_eq_parse (proc : Processor) (isClient : Bool) (readLimit : Int)
    (s : Bytes) (segs : List Bytes) (hcut : segs.flatten = s) (hproc : proc.NeverUpgrades)
    (hlimit : (s.length : Int) ≤ readLimit) :
    let cut := (newParser isClient).feed proc readLimit [] segs
    let whole := (newParser isClient).parse proc readLimit [] s
    cut.log = whole.log ∧ cut.err = whole.err ∧ (whole.err = none → cut = whole) := by
  subst hcut
  have hr := newParser_ready proc isClient []
  have hcut : Parser.InLimit proc readLimit (newParser isClient) [] segs :=
    .inl (by rwa [show (newParser isClient).cache.length = 0 from rfl, Nat.zero_add])
  exact (Parser.feed_matches_flatten hproc hr hcut).agree
    (newParser_parse_matches hproc isClient readLimit segs.flatten)

/-- A request in three pieces, the second of which ends inside a line end. -/
theorem feed_segments_eq_parse_get :
    let proc : Processor := { result := fun _ => none, closer := fun _ => false }
    let segs := [ascii "GE", ascii "T / HTTP/1.1\r", ascii "\n\r\n"]
    ((newParser false).feed proc 100 [] segs).log =
      ((newParser false).parse proc 100 [] segs.flatten).log := by
  refine (feed_segments_eq_parse { result := fun _ => none, closer := fun _ => false } false 100
    _ [ascii "GE", ascii "T / HTTP/1.1\r", ascii "\n\r\n"] rfl (fun _ => rfl) ?_).1
  decide

end Nbio.Http
