import Nbio.Http.Framing
import Nbio.Lib.Machine

/-!
# The readers of a connection

The data handlers of non-blocking connections and the loops `readConnBlocking` and
`readTLSConnBlocking` of blocking ones call `Parse` for what has been read, on the parser or, once
the connection has been upgraded, on what the parser was given in `ParserCloser`.  When `Parse`
returns an error the handlers close the connection and `readTLSConnBlocking` returns;
`readConnBlocking` goes on.

After an error the parser stands where it was, so that what it does about later bytes depends on the
state it was left in.
-/

namespace Nbio.Http

open Nbio.Go Nbio.Lib Option

/-! ## The readers -/

/-- What the readers use.  Whether `Trasfered` has been set and whether the session of the
connection has been replaced by the `ParserCloser` depends on the calls made so far. -/
structure Server where
  proc : Processor
  trasfered : Log → Bool
  session : Log → Bool
  readLimit : Int

structure Reading where
  parser : Parser
  log : Log
  /-- `Parse` is called on the `ParserCloser` of the parser. -/
  upgraded : Bool
  /-- The loop has returned, or the connection has been closed. -/
  returned : Bool
  /-- The calls made when `Parse` first returned an error. -/
  failed : Option Log
deriving DecidableEq, Repr

def Reading.init (isClient : Bool) : Reading :=
  { parser := newParser isClient, log := [], upgraded := false, returned := false, failed := none }

def Parser.closeAndClean (p : Parser) : Parser := { p with state := .close }

namespace Reading

variable (sv : Server)

/-- `parserCloser.Parse`: the error and the variables. -/
def parse (s : Reading) (data : Bytes) : Option Err × Reading :=
  let r : Option Err × Reading :=
    if s.upgraded then
      let log := s.log ++ [Callback.closerParse data]
      ((sv.proc.result log).map .processor, { s with log := log })
    else
      let r := s.parser.parse sv.proc sv.readLimit s.log data
      (r.err, { s with parser := r.parser, log := r.log })
  (r.1, { r.2 with failed := s.failed.or (r.1.map fun _ => r.2.log) })

/-- What both loops do behind a call of `Parse`. -/
def settle (s : Reading) : Reading :=
  if sv.trasfered s.log then { s with parser := s.parser.closeAndClean, returned := true }
  else if !s.upgraded && s.parser.parserCloser then
    { s with parser := s.parser.closeAndClean, upgraded := true }
  else s

end Reading

/-- A read from the connection: the bytes, and whether there was an error. -/
structure Got where
  data : Bytes
  err : Bool
deriving DecidableEq, Repr

/-- `DataHandler`, and an iteration of `TLSDataHandler`, which gets what has been decrypted. -/
def dataHandler (sv : Server) (s : Reading) (got : Got) : Option Reading :=
  if s.returned then none
  else if got.data = [] then some { s with returned := got.err }
  else
    let (err, s) := { s with upgraded := sv.session s.log }.parse sv got.data
    some { s with returned := err.isSome || got.err }

/-- An iteration of `readConnBlocking`. -/
def readConnBlocking (sv : Server) (s : Reading) (got : Got) : Option Reading :=
  if s.returned then none
  else if got.err then some { s with returned := true }
  else some ((s.parse sv got.data).2.settle sv)

/-- An iteration of the inner loop of `readTLSConnBlocking`, which gets what has been decrypted. -/
def readTLSConnBlocking (sv : Server) (s : Reading) (got : Got) : Option Reading :=
  if s.returned then none
  else
    let s : Reading :=
      if got.data = [] then s
      else
        let (err, s) := s.parse sv got.data
        if err.isSome then { s with returned := true } else s.settle sv
    some (if got.err then { s with returned := true } else s)

/-! ## Dispatches -/

/-- The calls that hand a message to a handler, or bytes to the protocol that does. -/
def Callback.isDispatch : Callback → Bool
  | .onComplete | .closerParse _ => true
  | _ => false

def dispatches (log : Log) : Log := log.filter Callback.isDispatch

@[simp] theorem dispatches_append (log : Log) (cb : Callback) :
    dispatches (log ++ [cb]) = dispatches log ++ if cb.isDispatch then [cb] else [] := by
  cases h : cb.isDispatch <;> simp [dispatches, List.filter_append, h]

/-- Nothing has been dispatched since `Parse` first returned an error. -/
def Reading.Ended (s : Reading) : Prop :=
  ∀ log, s.failed = some log → dispatches s.log = dispatches log

/-! ## Bytes without a line feed -/

/-- The parser reads bytes, and has dispatched `d`. -/
structure Calm (d : Log) (p : Fields) (log : Log) : Prop where
  byte : p.state.isByte = true
  closer : p.parserCloser = false
  dispatched : dispatches log = d

/-- `I` holds of the fields and the calls whatever a byte leads to. -/
def Act.Always (a : Act) (I : Fields → Log → Prop) : Prop :=
  match a with
  | .go p log _ | .fail p log _ | .panic p log => I p log

section Calm

variable {d : Log} {p q : Fields} {log : Log}

theorem Calm.same (h : Calm d p log) (hstate : q.state = p.state)
    (hcloser : q.parserCloser = p.parserCloser) : Calm d q log :=
  ⟨hstate ▸ h.byte, hcloser ▸ h.closer, h.dispatched⟩

theorem Calm.call (h : Calm d p log) {cb : Callback} (hcb : cb.isDispatch = false) :
    Calm d p (log ++ [cb]) :=
  ⟨h.byte, h.closer, by simp [hcb, h.dispatched]⟩

theorem Calm.next (h : Calm d p log) {s : State} (hs : s.isByte = true) :
    Calm d (p.nextState s) log := by
  have hne : p.state ≠ .close := by
    intro hclose
    have hbyte := h.byte
    rw [hclose] at hbyte
    cases hbyte
  rw [Fields.nextState_of_ne hne]
  exact ⟨hs, h.closer, h.dispatched⟩

theorem Calm.move {c : UInt8} {s : State} (h : Calm d p log) (hc : c ≠ LF) (hq : p.Stands q)
    (hs : p.state.leads c s = true) : Calm d (q.nextState s) log := by
  have hlf : (c == LF) = false := beq_eq_false_iff_ne.2 hc
  unfold State.leads at hs
  rw [hlf, Bool.or_false, Bool.and_eq_true] at hs
  exact (h.same hq.state hq.parserCloser).next hs.2

theorem Callback.isDispatch_of_isPiece {cb : Callback} (h : cb.isPiece = true) :
    cb.isDispatch = false := by
  cases cb with
  | onComplete => cases h
  | closerParse udata => cases h
  | _ => rfl

theorem ByteStep.calm {proc : Processor} {c : UInt8} {log' : Log}
    (hstep : ByteStep proc p log c q log') (hc : c ≠ LF) (h : Calm d p log) : Calm d q log' := by
  cases hstep with
  | stay hq => exact h.same hq.state hq.parserCloser
  | move hq hs => exact h.move hc hq.toStands hs
  | call hq hs hcb =>
    exact (h.call (Callback.isDispatch_of_isPiece hcb)).move hc hq.toStands hs
  | line hin value =>
    have hcalled : Calm d p (log ++ [.onHeader p.headerKey value]) := h.call rfl
    refine Calm.next ?_ rfl
    exact hcalled.same rfl rfl
  | blank hq l => exact ((h.call rfl).same hq.state hq.parserCloser).next rfl
  | complete hq hne hlf => exact absurd hlf hc

theorem ByteFail.calm {log' : Log} (hfail : ByteFail p log q log') (h : Calm d p log) :
    Calm d q log' := by
  have hstands := h.same hfail.state hfail.parserCloser
  rcases hfail.calls with rfl | ⟨cb, hcb | ⟨l, rfl⟩, rfl⟩
  · exact hstands
  · exact hstands.call (Callback.isDispatch_of_isPiece hcb)
  · exact hstands.call rfl

theorem onByte_calm (proc : Processor) (tok : Option Bytes) {c : UInt8} (hc : c ≠ LF)
    (h : Calm d p log) : (onByte proc p log tok c).Always (Calm d) := by
  have hdoes := onByte_does proc p log tok c
  cases hact : onByte proc p log tok c with
  | go q log' st =>
    rw [hact] at hdoes
    exact ByteStep.calm hdoes hc h
  | fail q log' e =>
    rw [hact] at hdoes
    exact ByteFail.calm hdoes h
  | panic q log' =>
    rw [hact] at hdoes
    obtain ⟨rfl, rfl⟩ := hdoes
    exact h

/-- The loop is left otherwise than at `UPGRADER`, with `I` true of the fields and the calls. -/
def LoopEnd.Always (e : LoopEnd) (I : Fields → Log → Prop) : Prop :=
  match e with
  | .exit p log _ | .fail p log _ | .panic p log | .stuck p log => I p log
  | .upgrade .. => False

theorem loop_calm {proc : Processor} {data : Bytes} (fuel : Nat) {start i : Nat}
    (hdata : LF ∉ data.drop i) (h : Calm d p log) :
    (loop proc data fuel p log start i).Always (Calm d) := by
  induction fuel generalizing p log start i with
  | zero => exact h
  | succ fuel ih =>
    unfold loop
    split
    · next hi =>
      rw [List.drop_eq_getElem_cons hi, List.mem_cons, not_or] at hdata
      have hstep := onByte_calm proc (slice data start i) (Ne.symm hdata.1) h
      rw [iterate, if_neg (by rw [h.closer]; exact Bool.false_ne_true),
        Fields.bodyLen_of_isByte h.byte]
      cases hact : onByte proc p log (slice data start i) data[i] with
      | go p' log' st =>
        rw [hact] at hstep
        exact ih hdata.2 hstep
      | fail p' log' e =>
        rw [hact] at hstep
        exact hstep
      | panic p' log' =>
        rw [hact] at hstep
        exact hstep
    · exact h

theorem leave_calm {proc : Processor} {p : Parser} {e : LoopEnd} (h : e.Always (Calm d))
    (data : Bytes) :
    Calm d (Parser.leave proc p data e).parser.toFields (Parser.leave proc p data e).log := by
  cases e with
  | exit f log start =>
    rw [Parser.leave, Parser.keepLeft_fields]
    exact h
  | fail f log e => exact h
  | upgrade f log start => cases h
  | panic f log => exact h
  | stuck f log => exact h

/-- A call of `Parse` in a byte state dispatches nothing for bytes without a line feed. -/
theorem parse_calm (proc : Processor) (readLimit : Int) {p : Parser} {data : Bytes}
    (hdata : LF ∉ data) (h : Calm d p.toFields log) :
    Calm d (p.parse proc readLimit log data).parser.toFields
      (p.parse proc readLimit log data).log := by
  unfold Parser.parse
  dsimp only
  split
  · exact h
  split
  · exact h
  generalize p.initReadDeadline.bytesCached.getD [] = cached
  split
  · exact h
  generalize hload : (if 0 < cached.length then
    { p.initReadDeadline with bytesCached := some (cached ++ data) } else p.initReadDeadline) = q
  have hq : Calm d q.toFields log := by
    subst hload
    split
    · exact h
    · exact h
  rw [if_neg (by rw [hq.closer]; exact Bool.false_ne_true)]
  have hdrop : LF ∉ (cached ++ data).drop cached.length := by
    rw [List.drop_left]
    exact hdata
  exact leave_calm (loop_calm _ hdrop hq) _

end Calm

/-! ## Runs -/

namespace Reading

variable {sv : Server} {s t : Reading} {got : Got}

/-- Bytes read after an error cause no dispatch: the parser is in use and reads bytes, and there is
no line feed among them. -/
def harmless (s : Reading) (got : Got) : Bool :=
  s.failed.isNone || (!s.upgraded && s.parser.state.isByte && !got.data.contains LF)

theorem parse_failed (sv : Server) (s : Reading) (data : Bytes) :
    (s.parse sv data).2.failed =
      s.failed.or ((s.parse sv data).1.map fun _ => (s.parse sv data).2.log) := rfl

theorem parse_ended_of_none (sv : Server) (h : s.failed = none) (data : Bytes) :
    (s.parse sv data).2.Ended := by
  intro log hlog
  rw [parse_failed, h, Option.none_or, map_eq_some_iff] at hlog
  obtain ⟨_, -, hlog⟩ := hlog
  rw [hlog]

theorem settle_log (s : Reading) : (s.settle sv).log = s.log := by
  unfold settle
  split
  · rfl
  · split
    · rfl
    · rfl

theorem settle_failed (s : Reading) : (s.settle sv).failed = s.failed := by
  unfold settle
  split
  · rfl
  · split
    · rfl
    · rfl

theorem settle_ended (h : s.Ended) : (s.settle sv).Ended := by
  intro log hlog
  rw [settle_failed] at hlog
  rw [settle_log]
  exact h log hlog

/-- The variables of `readConnBlocking` between two iterations. -/
structure Inv (s : Reading) : Prop where
  ended : s.Ended
  /-- A `ParserCloser` that has been set is in use. -/
  closer : s.returned = false → s.upgraded = false → s.parser.parserCloser = false

theorem settle_inv (h : s.Ended) : (s.settle sv).Inv := by
  refine ⟨settle_ended h, ?_⟩
  intro hreturned hupgraded
  unfold settle at hreturned hupgraded ⊢
  split at hreturned
  · cases hreturned
  next htrasfered =>
  rw [if_neg htrasfered] at hupgraded ⊢
  split at hupgraded
  · cases hupgraded
  next hcloser =>
  rw [if_neg hcloser]
  simpa [hupgraded] using hcloser

theorem parse_ended (h : s.Inv) (hreturned : s.returned = false)
    (hgot : s.harmless got = true) : (s.parse sv got.data).2.Ended := by
  cases hfailed : s.failed with
  | none => exact parse_ended_of_none sv hfailed got.data
  | some log₀ =>
    simp only [harmless, hfailed, Option.isNone_some, Bool.false_or, Bool.and_eq_true,
      Bool.not_eq_true', List.contains_eq_mem, decide_eq_false_iff_not] at hgot
    obtain ⟨⟨hupgraded, hbyte⟩, hdata⟩ := hgot
    have hcalm : Calm (dispatches log₀) s.parser.toFields s.log :=
      ⟨hbyte, h.closer hreturned hupgraded, h.ended log₀ hfailed⟩
    intro log hlog
    rw [parse_failed, hfailed, Option.some_or, Option.some.injEq] at hlog
    subst hlog
    have hparse := (parse_calm sv.proc sv.readLimit hdata hcalm).dispatched
    rw [parse, if_neg (by rw [hupgraded]; exact Bool.false_ne_true)]
    exact hparse

theorem readConnBlocking_inv (h : s.Inv) (hgot : s.harmless got = true)
    (hstep : readConnBlocking sv s got = some t) : t.Inv := by
  unfold readConnBlocking at hstep
  split at hstep
  · cases hstep
  next hreturned =>
  rw [Bool.not_eq_true] at hreturned
  split at hstep
  · obtain rfl := some.inj hstep
    exact ⟨h.ended, nofun⟩
  · obtain rfl := some.inj hstep
    exact settle_inv (parse_ended h hreturned hgot)

/-- An error has made the reader return, and nothing was dispatched since. -/
structure Stopped (s : Reading) : Prop where
  ended : s.Ended
  returned : s.returned = false → s.failed = none

theorem Stopped.leave (h : s.Ended) (b : Bool) (hb : b = false → s.failed = none) :
    { s with returned := b }.Stopped :=
  ⟨h, hb⟩

/-- The first call of `Parse` to return an error leaves nothing behind it. -/
theorem parse_first {err : Option Err} {data : Bytes} (h : s.failed = none)
    (hparse : s.parse sv data = (err, t)) : t.Ended ∧ (err = none → t.failed = none) := by
  have hended := parse_ended_of_none sv h data
  have hfailed := parse_failed sv s data
  rw [hparse] at hended hfailed
  refine ⟨hended, ?_⟩
  intro herr
  rw [hfailed, h, herr]
  rfl

theorem dataHandler_stopped (h : s.Stopped) (hstep : dataHandler sv s got = some t) :
    t.Stopped := by
  unfold dataHandler at hstep
  split at hstep
  · cases hstep
  next hreturned =>
  have hnone := h.returned (by simpa using hreturned)
  split at hstep
  · obtain rfl := some.inj hstep
    exact .leave h.ended _ fun _ => hnone
  · generalize hparse : parse sv { s with upgraded := sv.session s.log } got.data = r at hstep
    obtain ⟨hended, hok⟩ := parse_first (s := { s with upgraded := sv.session s.log }) hnone hparse
    obtain rfl := some.inj hstep
    refine .leave hended _ fun hret => hok ?_
    rw [Bool.or_eq_false_iff, isSome_eq_false_iff, isNone_iff_eq_none] at hret
    exact hret.1

theorem readTLSConnBlocking_stopped (h : s.Stopped)
    (hstep : readTLSConnBlocking sv s got = some t) : t.Stopped := by
  unfold readTLSConnBlocking at hstep
  split at hstep
  · cases hstep
  next hreturned =>
  have hnone := h.returned (by simpa using hreturned)
  generalize hparse : parse sv s got.data = r at hstep
  obtain ⟨err, u⟩ := r
  obtain ⟨hended, hok⟩ := parse_first hnone hparse
  generalize hafter : (if got.data = [] then s
    else if err.isSome then { u with returned := true } else u.settle sv) = after at hstep
  have hstopped : after.Stopped := by
    subst hafter
    split
    · exact h
    split
    · exact .leave hended _ nofun
    · next herr =>
      rw [Bool.not_eq_true, isSome_eq_false_iff, isNone_iff_eq_none] at herr
      exact ⟨settle_ended hended, fun _ => (settle_failed u).trans (hok herr)⟩
  obtain rfl := some.inj hstep
  split
  · exact .leave hstopped.ended _ nofun
  · exact hstopped

theorem init_ended (isClient : Bool) : (init isClient).Ended := nofun

end Reading

/-- As long as `readConnBlocking` reads only harmless bytes after an error, an error of `Parse` ends
the connection, as it does in the other readers whatever they read. -/
theorem error_ends_connection (sv : Server) (isClient : Bool) (s : Reading) :
    (Reaches (readConnBlocking sv) (fun s got => s.harmless got = true) (.init isClient) s →
      s.Ended) ∧
    (Reaches (readTLSConnBlocking sv) (fun _ _ => True) (.init isClient) s → s.Ended) ∧
    (Reaches (dataHandler sv) (fun _ _ => True) (.init isClient) s → s.Ended) := by
  refine ⟨fun h => ?_, fun h => ?_, fun h => ?_⟩
  · refine (h.invariant (P := Reading.Inv) ⟨Reading.init_ended isClient, fun _ _ => rfl⟩ ?_).ended
    intro t got u ht hgot hstep
    exact Reading.readConnBlocking_inv ht hgot hstep
  · refine (h.invariant (P := Reading.Stopped) ⟨Reading.init_ended isClient, fun _ => rfl⟩ ?_).ended
    intro t got u ht _ hstep
    exact Reading.readTLSConnBlocking_stopped ht hstep
  · refine (h.invariant (P := Reading.Stopped) ⟨Reading.init_ended isClient, fun _ => rfl⟩ ?_).ended
    intro t got u ht _ hstep
    exact Reading.dataHandler_stopped ht hstep

def plainServer : Server :=
  { proc := .accept, trasfered := fun _ => false, session := fun _ => false, readLimit := 0 }

/-- What is read of a client that starts with a byte no method has: the error, then `bytes`. -/
def afterError (bytes : Bytes) : List Got :=
  [{ data := ascii "?", err := false }, { data := bytes, err := false }]

/-- A second read that is harmless: a method and a path. -/
theorem error_ends_connection_no_line :
    ∃ s, (afterError (ascii "GET /")).foldlM (guarded (readConnBlocking plainServer)
        Reading.harmless) (.init false) = some s ∧
      s.failed = some [] ∧ s.parser.state = .path ∧ s.Ended := by
  have hrun : ∀ s, (afterError (ascii "GET /")).foldlM (guarded (readConnBlocking plainServer)
      Reading.harmless) (.init false) = some s → s.Ended :=
    fun s h => (error_ends_connection plainServer false s).1 (.of_foldlM h)
  exact ⟨_, rfl, rfl, rfl, hrun _ rfl⟩

/-- After an error the next request is dispatched all the same. -/
theorem request_after_error_is_dispatched :
    ∃ s, (afterError (ascii "GET / HTTP/1.1\r\n\r\n")).foldlM
        (readConnBlocking plainServer) (.init false) = some s ∧
      s.failed = some [] ∧ dispatches s.log = [Callback.onComplete] ∧ ¬ s.Ended := by
  refine ⟨_, rfl, rfl, rfl, ?_⟩
  intro h
  exact absurd (h [] rfl) (by decide)

end Nbio.Http
