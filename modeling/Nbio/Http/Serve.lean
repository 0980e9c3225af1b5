import Nbio.Http.BufferUse
import Nbio.Http.Calls
import Nbio.Http.Chunked
import Nbio.Http.Pipeline
import Nbio.Http.ServerProcessor
import Nbio.Net.Jobs

/-!
# Serving a pipeline

The parser of a server connection hands each request that is complete to `OnComplete`, which gives
a job for it to `Execute` and returns; meanwhile the jobs of the connection run one after the other.
A job calls the handler and then `flushResponse`.  Each of these makes any number of calls of
`conn.Write`, and every one of them is a step of its own here, so that nothing but the order of the
jobs keeps the responses apart.

Nobody but `flushResponse` closes the connection.  `made`, `ops` and `wire` record what is passed to
`conn.Write` and what the handlers call.

The memory pool is shared by all of them.  What a response passes to `conn.Write` is its own as long
as it uses no buffer that it has freed, so the handlers are those whose `Write` does not meet the
branch of `writeChunk` that does (`Work.roomy`).
-/

namespace Nbio.Http

open Nbio.Go Nbio.Lib Nbio.Net List Option

/-! ## What has been sent stays sent -/

namespace Exchange

variable {env : Env} {ds : List Bytes} {x : Exchange} {b : Buf} {data : Bytes}

@[simp] theorem malloc_sent (size : Nat) : (x.malloc env size).2.sent = x.sent := rfl

@[simp] theorem append_sent (more : Bytes) : (x.append b more).2.sent = x.sent := rfl

@[simp] theorem reslice_sent : (x.reslice b).2.sent = x.sent := rfl

@[simp] theorem free_sent : (x.free b).sent = x.sent := rfl

@[simp] theorem setBuffer_sent (b : Option Buf) : (x.setBuffer b).sent = x.sent := rfl

@[simp] theorem setBodyBuffer_sent (b : Option Buf) : (x.setBodyBuffer b).sent = x.sent := rfl

@[simp] theorem addWritten_sent (l : Int) : (x.addWritten l).sent = x.sent := rfl

@[simp] theorem eoncodeHead_sent : (x.eoncodeHead env).sent = x.sent := by
  unfold eoncodeHead
  split <;> rfl

section

variable (h : ds <+: x.sent)

include h

theorem connWrite_keeps : ds <+: (x.connWrite env data).2.sent := by
  unfold connWrite
  cases env.connErr x.connWrites with
  | none => exact h.trans (prefix_append _ _)
  | some e => exact h

theorem send_keeps : ds <+: (x.send env b).2.sent := by
  apply connWrite_keeps
  exact h

theorem sendChunk_keeps : ds <+: (x.sendChunk env b data).2.sent := by
  have hsend : ds <+:
      ((x.appends b [data, crlf]).2.send env (x.appends b [data, crlf]).1).2.sent := by
    apply send_keeps
    simpa using h
  unfold sendChunk
  dsimp only
  split
  · simpa using h
  · split <;> simpa using hsend

theorem putChunk_keeps (pbuf : Option Buf) :
    ds <+: (x.putChunk env pbuf data).2.sent := by
  unfold putChunk
  dsimp only
  split
  · next b =>
    split
    · simpa using h
    · split
      · apply send_keeps
        simpa using h
      · apply sendChunk_keeps
        apply send_keeps
        simpa using h
  · split
    · simpa using h
    · apply sendChunk_keeps
      simpa using h

theorem cacheBody_keeps (cl : Int) :
    ds <+: (x.cacheBody env cl b data).2.sent := by
  have hsend : ds <+: (((x.addWritten data.length).append b data).2.send env
      ((x.addWritten data.length).append b data).1).2.sent := send_keeps h
  unfold cacheBody
  dsimp only
  split
  · split
    · simpa using hsend
    · simpa using hsend
  · simpa using h

theorem appendBody_keeps (cl : Int) :
    ds <+: (x.appendBody env cl data).2.sent := by
  unfold appendBody
  dsimp only
  split
  · split
    · exact connWrite_keeps h
    · apply cacheBody_keeps
      exact h
  · next b _ =>
    split
    · have hcached : ds <+: (if 0 < b.data.length then
          ((x.send env b).1.2, (x.send env b).2.reslice b) else (none, b, x)).2.2.sent := by
        split
        · exact send_keeps h
        · exact h
      split
      · next heq =>
        rw [heq] at hcached
        simpa using hcached
      · next heq =>
        rw [heq] at hcached
        split
        · apply connWrite_keeps
          simpa using hcached
        · exact cacheBody_keeps hcached cl
    · exact cacheBody_keeps h cl

theorem write_keeps : ds <+: (x.write env data).2.sent := by
  unfold write
  split
  · exact h
  dsimp only
  split
  · apply putChunk_keeps
    rw [setBuffer_sent, eoncodeHead_sent]
    exact h
  split
  · exact h
  next cl res _ =>
  split
  · exact h
  split
  · split
    · apply appendBody_keeps
      rw [setBuffer_sent, eoncodeHead_sent]
      exact h
    · split
      · apply appendBody_keeps
        rw [setBodyBuffer_sent, setBuffer_sent, eoncodeHead_sent]
        exact h
      · have hsend : ∀ b, ds <+: (((({ x with res := res } : Exchange).eoncodeHead env).setBuffer
            none).send env b).2.sent := by
          intro b
          apply send_keeps
          rw [setBuffer_sent, eoncodeHead_sent]
          exact h
        split
        · exact hsend _
        · apply appendBody_keeps
          exact hsend _
  · apply appendBody_keeps
    exact h

theorem flushBuf_keeps (b : Option Buf) :
    ds <+: (x.flushBuf env b).2.sent := by
  cases b with
  | none => exact h
  | some b =>
    have hsend : ds <+: (x.send env b).2.sent := send_keeps h
    unfold flushBuf
    dsimp only
    split
    · split
      · exact hsend
      · exact hsend
    · exact h

theorem Flush_keeps : ds <+: (x.Flush env).sent := by
  unfold Flush
  split
  · exact h
  · apply flushBuf_keeps
    apply flushBuf_keeps
    rw [eoncodeHead_sent]
    exact h

theorem call_keeps (op : Op) : ds <+: (x.call env op).sent := by
  cases op with
  | write data => exact write_keeps h
  | flush => exact Flush_keeps h

end

/-- If the connection takes everything, what is left to `flush` goes out without an error. -/
structure Finishes (ds : List Bytes) (r : Option ResponseErr × Exchange) : Prop where
  sent : ds <+: r.2.sent
  ok : r.1 = none

variable (hok : ∀ n, env.connErr n = none) (h : ds <+: x.sent)

include hok h

theorem flushBody_finishes :
    Finishes ds (x.flushBody env) := by
  unfold flushBody
  split
  · exact ⟨h, rfl⟩
  · next body _ =>
    split
    · exact ⟨send_keeps h, (send_ok hok).1⟩
    · exact ⟨h, rfl⟩

theorem flushHead_finishes :
    Finishes ds (x.flushHead env b) := by
  unfold flushHead
  simp only [(send_ok hok).1]
  exact flushBody_finishes hok (send_keeps h)

theorem flushPlain_finishes :
    Finishes ds (x.flushPlain env) := by
  unfold flushPlain
  split
  · exact flushBody_finishes hok h
  next b _ =>
  split
  · split
    · split
      · simp only [(send_ok hok).1]
        exact flushHead_finishes hok (send_keeps h)
      · exact flushHead_finishes hok h
    · exact flushHead_finishes hok h
  · exact flushHead_finishes hok h

theorem flushChunked_finishes :
    Finishes ds (x.flushChunked env) := by
  unfold flushChunked
  dsimp only
  refine ⟨?_, (send_ok hok).1⟩
  apply send_keeps
  split
  · split <;> exact h
  · split
    · rw [append_sent, appends_sent]
      exact h
    · rw [append_sent, appends_sent]
      exact h

theorem flushResponse_finishes :
    Finishes ds (x.flushResponse env) := by
  unfold flushResponse
  split
  · exact ⟨h, rfl⟩
  have hhead : ds <+: (({ x with res := (x.res.writeHeader env 200).checkChunked } :
      Exchange).eoncodeHead env).sent := by
    rw [eoncodeHead_sent]
    exact h
  dsimp only [flush]
  split
  · exact flushChunked_finishes hok hhead
  · exact flushPlain_finishes hok hhead

end Exchange

/-! ## The parser -/

namespace Parser

theorem feed_concat {proc : Processor} {readLimit : Int} {p p' : Parser} {log log' : Log}
    {segs : List Bytes} {data : Bytes}
    (h : p.feed proc readLimit log segs =
      { parser := p', log := log', err := none, recovered := false })
    (herr : (p'.parse proc readLimit log' data).err = none) :
    p.feed proc readLimit log (segs ++ [data]) =
      { parser := (p'.parse proc readLimit log' data).parser
        log := (p'.parse proc readLimit log' data).log, err := none, recovered := false } := by
  induction segs generalizing p log with
  | nil =>
    cases h
    simp only [nil_append, feed, herr]
  | cons seg segs ih =>
    rw [feed] at h
    rw [cons_append, feed]
    cases he : (p.parse proc readLimit log seg).err with
    | none =>
      simp only [he] at h ⊢
      exact ih h
    | some e =>
      simp only [he] at h
      rw [h] at he
      cases he

end Parser

/-! ## The machine -/

def Op.handlerCall : Op → HandlerCall
  | .write data => .write data
  | .flush => .flush

theorem Exchange.roomy_kept {env : Env} {x : Exchange} (h : x.Kept) {ops : List Op}
    (hroom : x.roomy env (ops.map Op.handlerCall) = true) : (ops.foldl (·.call env) x).Kept := by
  induction ops generalizing x with
  | nil => exact h
  | cons op ops ih =>
    have hcall : x.perform env op.handlerCall = x.call env op := by cases op <;> rfl
    simp only [map_cons, roomy, Bool.and_eq_true, Bool.not_eq_true', hcall] at hroom
    have hkept := perform_kept h hroom.1
    rw [hcall] at hkept
    exact ih hkept hroom.2

namespace Serve

/-- How far a response is: its handler has not returned, `flushResponse` sends what is left, it is
over. -/
inductive Stage where
  | handling | flushing | ended
deriving DecidableEq, Repr

/-- The response to a request.  `toSend` is what a call in progress has still to pass to
`conn.Write`, and `failed` whether `flush` has met an error. -/
structure Work where
  number : Nat
  request : HttpRequest
  x : Exchange
  stage : Stage
  failed : Bool
  toSend : List Bytes
  made : List Bytes
  ops : List Op
deriving DecidableEq, Repr

def newWork (number : Nat) (request : HttpRequest) : Work :=
  { number := number, request := request, x := (newResponse request.info).exchange
    stage := .handling, failed := false, toSend := [], made := [], ops := [] }

namespace Work

def goOn (w : Work) (x : Exchange) : Work :=
  { w with x := x, toSend := x.sent.drop w.x.sent.length }

def block (w : Work) : List (Nat × Bytes) := w.made.map (w.number, ·)

/-- No `Write` of the handler finds a cached buffer that has to make room for its chunk. -/
def roomy (env : Nat → Env) (w : Work) : Bool :=
  (newResponse w.request.info).exchange.roomy (env w.number) (w.ops.map Op.handlerCall)

/-- The bytes of the response to a request whose handler makes these calls. -/
def response (env : Nat → Env) (w : Work) : Bytes :=
  (newResponse w.request.info).exchange.respond (env w.number) w.ops

end Work

structure Server where
  parser : Parser
  log : Log
  read : List Bytes
  /-- For how many requests `OnComplete` has returned. -/
  handed : Nat
  /-- Jobs are numbered like the responses they are for. -/
  jobs : Jobs.State Nat
  works : List Work
  /-- What has been passed to `conn.Write`, and for which request. -/
  wire : List (Nat × Bytes)

def init : Server :=
  { parser := newParser false, log := [], read := [], handed := 0, jobs := Jobs.init, works := []
    wire := [] }

namespace Server

def running (s : Server) (n : Nat) : Option Work :=
  s.jobs.runners[n]?.bind fun r =>
    if r.phase = .running then r.job.bind (s.works[·]?) else none

def setWork (s : Server) (w : Work) : Server := { s with works := s.works.set w.number w }

def setJobs (s : Server) (jobs : Jobs.State Nat) : Server := { s with jobs := jobs }

/-- What a response finds; writing to a connection that has been closed fails. -/
def envFor (env : Nat → Env) (s : Server) (w : Work) : Env :=
  if s.jobs.closed then
    { env w.number with connErr := fun _ => some (-1, ascii "use of closed network connection") }
  else env w.number

end Server

inductive Event where
  | read (data : Bytes)
  /-- The rest of `OnComplete`, for the next request. -/
  | onComplete
  /-- The steps of runner `n` between two jobs. -/
  | submit (n : Nat)
  | start (n : Nat)
  | finish (n : Nat)
  /-- The handler that runner `n` is in makes a call. -/
  | call (n : Nat) (op : Op)
  /-- It has returned, and `flushResponse` is called. -/
  | flushResponse (n : Nat)
  /-- A `conn.Write` of runner `n`. -/
  | connWrite (n : Nat)
  /-- The end of `flushResponse`. -/
  | leave (n : Nat)

variable (conf : ServerConf) (env : Nat → Env) (readLimit : Int)

def step (s : Server) : Event → Option Server
  | .read data =>
    let r := s.parser.parse (serverProcessor conf) readLimit s.log data
    if s.jobs.closed = false ∧ s.handed = (requestsOf conf s.log).length ∧ r.err = none then
      some { s with parser := r.parser, log := r.log, read := s.read ++ [data] }
    else none
  | .onComplete =>
    (requestsOf conf s.log)[s.handed]?.map fun request =>
      match Jobs.Execute s.jobs s.works.length with
      | (true, jobs) =>
        { s with
          handed := s.handed + 1, jobs := jobs
          works := s.works ++ [newWork s.works.length request] }
      | (false, _) => { s with handed := s.handed + 1 }
  | .submit n => (Jobs.step s.jobs (.submit n)).map s.setJobs
  | .start n => (Jobs.step s.jobs (.start n)).map s.setJobs
  | .finish n =>
    (s.running n).bind fun w =>
      if w.stage = .ended then (Jobs.step s.jobs (.finish n)).map s.setJobs else none
  | .call n op =>
    (s.running n).bind fun w =>
      if w.stage = .handling ∧ w.toSend = [] then
        let w' := w.goOn (w.x.call (s.envFor env w) op)
        some (s.setWork { w' with ops := w.ops ++ [op] })
      else none
  | .flushResponse n =>
    (s.running n).bind fun w =>
      if w.stage = .handling ∧ w.toSend = [] then
        let r := w.x.flushResponse (s.envFor env w)
        some (s.setWork { w.goOn r.2 with stage := .flushing, failed := r.1.isSome })
      else none
  | .connWrite n =>
    (s.running n).bind fun w =>
      match w.toSend with
      | [] => none
      | d :: rest =>
        let s := s.setWork { w with toSend := rest, made := w.made ++ [d] }
        some { s with wire := s.wire ++ [(w.number, d)] }
  | .leave n =>
    (s.running n).bind fun w =>
      if w.stage = .flushing ∧ w.toSend = [] then
        let closed := s.jobs.closed || w.failed || w.request.close
        some ((s.setWork { w with stage := .ended }).setJobs { s.jobs with closed := closed })
      else none

/-! ## The stream -/

def Parsed (s : Server) : Prop :=
  (newParser false).feed (serverProcessor conf) readLimit [] s.read =
    { parser := s.parser, log := s.log, err := none, recovered := false }

variable {conf : ServerConf} {env : Nat → Env} {readLimit : Int} {s u : Server} {n : Nat} {w : Work}

theorem Parsed.log_eq (h : Parsed conf readLimit s) :
    s.log = ((newParser false).parse (serverProcessor conf) readLimit [] s.read.flatten).log := by
  have hnever := serverProcessor_neverUpgrades conf
  have hmatch : ((newParser false).feed (serverProcessor conf) readLimit [] s.read).Matches
      ((scanner (serverProcessor conf)).feed ((newParser false).cfg []) s.read.flatten) :=
    Parser.feed_matches_flatten hnever (newParser_ready _ false []) (.inr (by rw [h]; nofun))
  have hagree := hmatch.agree (newParser_parse_matches hnever false readLimit s.read.flatten)
  rw [h] at hagree
  exact hagree.1

theorem Parsed.scanned (h : Parsed conf readLimit s) :
    (scanner (serverProcessor conf)).feed ((newParser false).cfg []) s.read.flatten =
      .ok (s.parser.cfg s.log) := by
  have herr : ((newParser false).feed (serverProcessor conf) readLimit [] s.read).err = none := by
    rw [h]
  have hready := (Parser.feed_ready (serverProcessor_neverUpgrades conf)
    (newParser_ready _ false []) herr).2
  rw [h] at hready
  exact hready

theorem Parsed.log_grows (h : Parsed conf readLimit s) (h' : Parsed conf readLimit u)
    {data : Bytes} (hread : u.read = s.read ++ [data]) : s.log <+: u.log := by
  have hscan := h'.scanned
  rw [hread, flatten_concat, (scanner _).feed_append trivial, h.scanned] at hscan
  have hlog : (u.parser.cfg u.log).1.log = u.log := Parser.cfg_log
  generalize u.parser.cfg u.log = c at hscan hlog
  obtain ⟨k, left⟩ := c
  rw [← hlog]
  have hgrows : (s.parser.cfg s.log).1.log <+: callsOf (.ok (k, left)) :=
    hscan ▸ run_log_grows _ _
  rwa [Parser.cfg_log] at hgrows

/-! ## The invariant -/

def Work.exchange (env : Nat → Env) (w : Work) : Exchange :=
  let x := w.ops.foldl (·.call (env w.number)) (newResponse w.request.info).exchange
  if w.stage = .handling then x else (x.flushResponse (env w.number)).2

/-- A response depends on its request and its handler alone. -/
structure Work.Own (env : Nat → Env) (w : Work) : Prop where
  x : w.x = w.exchange env
  sent : w.x.sent = w.made ++ w.toSend
  ended : w.stage = .ended → w.toSend = []
  ok : w.failed = false

/-- The responses are at work in order: those whose job has been started are over or in the hands of
a runner, and the later ones are new. -/
structure Inv (conf : ServerConf) (env : Nat → Env) (s : Server) : Prop where
  jobs : Jobs.Inv s.jobs
  isOpen : s.jobs.closed = false
  appended : s.jobs.appended = range s.works.length
  numbers : ∀ (j : Nat) (w : Work), s.works[j]? = some w → w.number = j
  handed : s.works.length = s.handed
  requests : s.works.map Work.request = (requestsOf conf s.log).take s.handed
  own : ∀ w ∈ s.works, w.Own env
  started : ∀ w ∈ s.works, w.number < s.jobs.started.length →
    w.stage = .ended ∨ ∃ r ∈ s.jobs.runners, r.phase = .running ∧ r.job = some w.number
  later : ∀ w ∈ s.works, s.jobs.started.length ≤ w.number → w = newWork w.number w.request
  wire : s.wire = s.works.flatMap Work.block

theorem newWork_own (env : Nat → Env) (number : Nat) (request : HttpRequest) :
    (newWork number request).Own env := ⟨rfl, rfl, fun _ => rfl, rfl⟩

theorem init_inv : Inv conf env init where
  jobs := Jobs.init_inv
  isOpen := rfl
  appended := rfl
  numbers _ _ h := nomatch h
  handed := rfl
  requests := rfl
  own _ h := nomatch h
  started _ h := nomatch h
  later _ h := nomatch h
  wire := rfl

theorem Inv.running_last (h : Inv conf env s) {r : Jobs.Runner Nat} {j : Nat}
    (hr : s.jobs.runners[n]? = some r) (hphase : r.phase = .running) (hj : r.job = some j) :
    j + 1 = s.jobs.started.length := by
  obtain ⟨k, hk, hjob⟩ := (h.jobs.job hr).1 hphase
  rw [h.appended, hj] at hjob
  have hlt : k < s.works.length := by
    by_contra hle
    rw [getElem?_eq_none (by simpa using hle)] at hjob
    cases hjob
  rw [getElem?_range hlt, Option.some.injEq] at hjob
  omega

theorem Inv.running (h : Inv conf env s) (hw : s.running n = some w) :
    s.works[w.number]? = some w ∧ w.number + 1 = s.jobs.started.length ∧
      ∃ r, s.jobs.runners[n]? = some r ∧ r.phase = .running ∧ r.job = some w.number := by
  obtain ⟨r, hr, hw⟩ := bind_eq_some_iff.1 hw
  obtain ⟨hphase, hw⟩ := ite_none_right_eq_some.1 hw
  obtain ⟨j, hj, hw⟩ := bind_eq_some_iff.1 hw
  obtain rfl := h.numbers j w hw
  exact ⟨hw, h.running_last hr hphase hj, r, hr, hphase, hj⟩

theorem flatMap_set_last {α β : Type*} {f : α → List β} {l : List α} {k : Nat} {a a' : α}
    {extra : List β} (ha : l[k]? = some a) (hlater : ∀ j b, k < j → l[j]? = some b → f b = [])
    (hf : f a' = f a ++ extra) : (l.set k a').flatMap f = l.flatMap f ++ extra := by
  induction l generalizing k with
  | nil => cases ha
  | cons b l ih =>
    cases k with
    | zero =>
      obtain rfl : b = a := some.inj ha
      have hnil : l.flatMap f = [] := by
        rw [flatMap_eq_nil_iff]
        intro c hc
        obtain ⟨j, hj⟩ := mem_iff_getElem?.1 hc
        exact hlater (j + 1) c (Nat.succ_pos j) hj
      rw [set_cons_zero, flatMap_cons, flatMap_cons, hnil, hf, append_nil, append_nil]
    | succ k =>
      have hrest := ih ha fun j c hj hc => hlater (j + 1) c (Nat.succ_lt_succ hj) hc
      rw [set_cons_succ, flatMap_cons, flatMap_cons, hrest, append_assoc]

theorem Inv.setWork (h : Inv conf env s) (hw : s.running n = some w) {w' : Work}
    {extra : List (Nat × Bytes)} (hown : w'.Own env) (hnumber : w'.number = w.number)
    (hrequest : w'.request = w.request)
    (hblock : w'.block = w.block ++ extra) :
    Inv conf env { s.setWork w' with wire := s.wire ++ extra } := by
  obtain ⟨hget, hlast, r, hr, hphase, hjob⟩ := h.running hw
  have hmem : ∀ v ∈ s.works.set w'.number w', v = w' ∨ v ∈ s.works := fun v hv =>
    (mem_or_eq_of_mem_set hv).symm
  refine ⟨h.jobs, h.isOpen, ?_, ?_, ?_, ?_, ?_, ?_, ?_, ?_⟩
  · simpa [Server.setWork] using h.appended
  · intro j v hv
    obtain ⟨rfl, rfl⟩ | ⟨-, hv⟩ := of_getElem?_set hv
    · rfl
    · exact h.numbers j v hv
  · simpa [Server.setWork] using h.handed
  · change (s.works.set w'.number w').map Work.request = (requestsOf conf s.log).take s.handed
    rw [← h.requests, map_set, hnumber, hrequest]
    apply ext_getElem?
    intro j
    rw [getElem?_set]
    split
    · next heq =>
      obtain ⟨hlt, -⟩ := List.getElem?_eq_some_iff.1 hget
      rw [← heq, if_pos (by simpa using hlt), getElem?_map, hget]
      rfl
    · rfl
  · intro v hv
    rcases hmem v hv with rfl | hv
    · exact hown
    · exact h.own v hv
  · intro v hv hlt
    rcases hmem v hv with rfl | hv
    · exact .inr ⟨r, mem_of_getElem? hr, hphase, by rw [hjob, hnumber]⟩
    · exact h.started v hv hlt
  · intro v hv hle
    rcases hmem v hv with rfl | hv
    · rw [hnumber] at hle
      have hle : s.jobs.started.length ≤ w.number := hle
      omega
    · exact h.later v hv hle
  · change s.wire ++ extra = (s.works.set w'.number w').flatMap Work.block
    rw [hnumber, flatMap_set_last hget ?_ hblock, h.wire]
    intro j v hj hv
    have hnew := h.later v (mem_of_getElem? hv) (by rw [h.numbers j v hv]; omega)
    rw [hnew]
    rfl

theorem Inv.setWork_quiet (h : Inv conf env s) (hw : s.running n = some w) {w' : Work}
    (hown : w'.Own env) (hnumber : w'.number = w.number) (hrequest : w'.request = w.request)
    (hmade : w'.made = w.made) : Inv conf env (s.setWork w') := by
  have hblock : w'.block = w.block ++ [] := by
    rw [Work.block, Work.block, hnumber, hmade, append_nil]
  have hset := h.setWork hw hown hnumber hrequest hblock
  rwa [append_nil] at hset

theorem Work.Own.goOn (h : w.Own env) (hsend : w.toSend = []) {x : Exchange}
    (hx : w.x.sent <+: x.sent) : x.sent = w.made ++ x.sent.drop w.x.sent.length := by
  obtain ⟨rest, hrest⟩ := hx
  rw [← hrest, drop_left, h.sent, hsend, append_nil]

theorem Inv.envFor (h : Inv conf env s) (w : Work) : s.envFor env w = env w.number := by
  rw [Server.envFor, h.isOpen]
  rfl

theorem Inv.mem_of_running (h : Inv conf env s) (hw : s.running n = some w) : w ∈ s.works :=
  mem_of_getElem? (h.running hw).1

theorem Inv.over_of_started (h : Inv conf env s) {r : Jobs.Runner Nat}
    (hr : s.jobs.runners[n]? = some r) {v : Work} (hv : v ∈ s.works)
    (hlt : v.number < s.jobs.started.length) :
    v.stage = .ended ∨ r.phase = .running ∧ r.job = some v.number := by
  refine (h.started v hv hlt).imp_right ?_
  rintro ⟨r', hr', hphase, hjob⟩
  obtain ⟨-, hrunners, -⟩ := h.jobs.runner hr
  rw [hrunners, mem_singleton] at hr'
  subst hr'
  exact ⟨hphase, hjob⟩

variable {jobs : Jobs.State Nat}

section

variable (h : Inv conf env s)

include h

theorem Inv.setJobs (hinv : Jobs.Inv jobs) (hclosed : jobs.closed = s.jobs.closed)
    (happended : jobs.appended = s.jobs.appended) (hstarted : jobs.started = s.jobs.started)
    (hended : ∀ v ∈ s.works, v.number < s.jobs.started.length → v.stage = .ended) :
    Inv conf env (s.setJobs jobs) where
  jobs := hinv
  isOpen := hclosed.trans h.isOpen
  appended := happended.trans h.appended
  numbers := h.numbers
  handed := h.handed
  requests := h.requests
  own := h.own
  started v hv hlt := .inl (hended v hv (by rwa [← hstarted]))
  later v hv hle := h.later v hv (by rwa [← hstarted])
  wire := h.wire

theorem submit_inv (hstep : Jobs.step s.jobs (.submit n) = some jobs) :
    Inv conf env (s.setJobs jobs) := by
  have hinv := Jobs.step_inv h.jobs hstep
  rw [Jobs.step] at hstep
  split at hstep
  · next r hr =>
    obtain ⟨hphase, ⟨⟩⟩ := ite_none_right_eq_some.1 hstep
    refine h.setJobs hinv rfl rfl rfl fun v hv hlt => ?_
    rcases h.over_of_started hr hv hlt with hended | ⟨hrun, -⟩
    · exact hended
    · rw [hphase] at hrun
      cases hrun
  · cases hstep

theorem finish_inv (hw : s.running n = some w) (hended : w.stage = .ended)
    (hstep : Jobs.step s.jobs (.finish n) = some jobs) :
    Inv conf env (s.setJobs jobs) := by
  have hinv := Jobs.step_inv h.jobs hstep
  obtain ⟨hget, -, r, hr, hphase, hjob⟩ := h.running hw
  have hall : ∀ v ∈ s.works, v.number < s.jobs.started.length → v.stage = .ended := by
    intro v hv hlt
    rcases h.over_of_started hr hv hlt with hended' | ⟨-, hjob'⟩
    · exact hended'
    · rw [hjob, Option.some.injEq] at hjob'
      obtain ⟨j, hj⟩ := mem_iff_getElem?.1 hv
      have hj' := h.numbers j v hj
      rw [hjob', hj', hj, Option.some.injEq] at hget
      rw [hget]
      exact hended
  simp only [Jobs.step, hr, hphase, if_true, Option.some.injEq] at hstep
  subst hstep
  unfold Jobs.finish at hinv ⊢
  dsimp only at hinv ⊢
  split at hinv
  · next hend =>
    rw [if_pos hend]
    exact h.setJobs hinv rfl rfl rfl hall
  · next hend =>
    rw [if_neg hend]
    exact h.setJobs hinv rfl rfl rfl hall

theorem start_inv (hstep : Jobs.step s.jobs (.start n) = some jobs) :
    Inv conf env (s.setJobs jobs) := by
  have hinv := Jobs.step_inv h.jobs hstep
  rw [Jobs.step] at hstep
  split at hstep
  · next r hr =>
    obtain ⟨hphase, ⟨⟩⟩ := ite_none_right_eq_some.1 hstep
    have hnot : r.phase ≠ .running := by
      rcases hphase with hphase | hphase <;> rw [hphase] <;> decide
    obtain ⟨hlt, hjob⟩ := (h.jobs.job hr).2 hnot
    rw [h.appended, length_range] at hlt
    rw [h.appended, getElem?_range hlt] at hjob
    have hstarted :
        (Jobs.start s.jobs n r).started = s.jobs.started ++ [s.jobs.started.length] := by
      simp only [Jobs.start, hjob, Option.toList_some]
    refine ⟨hinv, h.isOpen, h.appended, h.numbers, h.handed, h.requests, h.own, ?_, ?_, h.wire⟩
    · intro v hv hlt'
      change v.number < (Jobs.start s.jobs n r).started.length at hlt'
      rw [hstarted, length_append, length_singleton] at hlt'
      by_cases hnew : v.number = s.jobs.started.length
      · refine .inr ⟨{ r with phase := .running }, ?_, rfl, by rw [hnew]; exact hjob⟩
        obtain ⟨hbound, -⟩ := List.getElem?_eq_some_iff.1 hr
        exact mem_set hbound _
      · rcases h.over_of_started hr hv (by omega) with hended | ⟨hrun, -⟩
        · exact .inl hended
        · exact absurd hrun hnot
    · intro v hv hle
      change (Jobs.start s.jobs n r).started.length ≤ v.number at hle
      rw [hstarted, length_append] at hle
      exact h.later v hv (by omega)
  · cases hstep

theorem onComplete_inv {request : HttpRequest}
    (hget : (requestsOf conf s.log)[s.handed]? = some request) :
    Inv conf env
      { s with
        handed := s.handed + 1, jobs := Jobs.append s.jobs s.works.length
        works := s.works ++ [newWork s.works.length request] } := by
  have hstarted : s.jobs.started.length ≤ s.works.length := by
    have hle := h.jobs.serial.inOrder.length_le
    rwa [h.appended, length_range] at hle
  have hmem : ∀ v ∈ s.works ++ [newWork s.works.length request],
      v ∈ s.works ∨ v = newWork s.works.length request := by simp
  refine ⟨Jobs.append_inv h.jobs _, h.isOpen, ?_, ?_, ?_, ?_, ?_, ?_, ?_, ?_⟩
  · change s.jobs.appended ++ [s.works.length] = _
    rw [h.appended, length_append, length_singleton, range_succ]
  · intro j v hv
    by_cases hlt : j < s.works.length
    · rw [getElem?_append_left hlt] at hv
      exact h.numbers j v hv
    · rw [getElem?_append_right (Nat.le_of_not_lt hlt), getElem?_singleton] at hv
      split at hv
      · cases hv
        change s.works.length = j
        omega
      · cases hv
  · rw [length_append, h.handed]
    rfl
  · rw [map_append, h.requests, take_add_one, hget]
    rfl
  · intro v hv
    rcases hmem v hv with hv | rfl
    · exact h.own v hv
    · exact newWork_own env _ request
  · intro v hv hlt
    rcases hmem v hv with hv | rfl
    · refine (h.started v hv hlt).imp_right ?_
      rintro ⟨r, hr, hrest⟩
      refine ⟨r, ?_, hrest⟩
      unfold Jobs.append
      dsimp only
      split
      · exact mem_append_left _ hr
      · exact hr
    · exact absurd hlt (Nat.not_lt_of_le hstarted)
  · intro v hv hle
    rcases hmem v hv with hv | rfl
    · exact h.later v hv hle
    · rfl
  · rw [flatMap_append, ← h.wire]
    exact (append_nil _).symm

end

theorem call_own (h : w.Own env) (hstage : w.stage = .handling) (hsend : w.toSend = []) (op : Op) :
    Work.Own env { w.goOn (w.x.call (env w.number) op) with ops := w.ops ++ [op] } where
  x := by
    have hx := h.x
    rw [Work.exchange, if_pos hstage] at hx
    simp only [Work.goOn, Work.exchange, if_pos hstage, foldl_append, foldl_cons, foldl_nil, ← hx]
  sent := h.goOn hsend (Exchange.call_keeps prefix_rfl op)
  ended hended := by
    have hended : w.stage = .ended := hended
    rw [hstage] at hended
    cases hended
  ok := h.ok

theorem flushResponse_own (hok : ∀ j n, (env j).connErr n = none) (h : w.Own env)
    (hstage : w.stage = .handling) (hsend : w.toSend = []) :
    let r := w.x.flushResponse (env w.number)
    Work.Own env { w.goOn r.2 with stage := .flushing, failed := r.1.isSome } := by
  have hfinishes := Exchange.flushResponse_finishes (hok w.number) (prefix_rfl (l := w.x.sent))
  refine ⟨?_, h.goOn hsend hfinishes.sent, nofun, ?_⟩
  · have hx := h.x
    rw [Work.exchange, if_pos hstage] at hx
    simp only [Work.goOn, Work.exchange, reduceCtorEq, if_false, ← hx]
  · simp only [hfinishes.ok, Option.isSome_none]

theorem connWrite_own (h : w.Own env) {d : Bytes} {rest : List Bytes}
    (hsend : w.toSend = d :: rest) :
    Work.Own env { w with toSend := rest, made := w.made ++ [d] } where
  x := h.x
  sent := by
    have hsent := h.sent
    rw [hsend] at hsent
    rw [append_assoc]
    exact hsent
  ended hended := by
    have hnil := h.ended hended
    rw [hsend] at hnil
    cases hnil
  ok := h.ok

theorem leave_own (h : w.Own env) (hstage : w.stage = .flushing) (hsend : w.toSend = []) :
    Work.Own env { w with stage := .ended } where
  x := by
    have hx := h.x
    rw [Work.exchange, hstage, if_neg (by decide)] at hx
    simp only [Work.exchange, reduceCtorEq, if_false, ← hx]
  sent := h.sent
  ended _ := hsend
  ok := h.ok

def KeepsAlive (conf : ServerConf) (s : Server) : Prop :=
  ∀ r ∈ requestsOf conf s.log, r.close = false

theorem Inv.keepsAlive (h : Inv conf env s) (hkeep : KeepsAlive conf s) {w : Work}
    (hw : w ∈ s.works) : w.request.close = false := by
  apply hkeep
  have hmem := mem_map_of_mem (f := Work.request) hw
  rw [h.requests] at hmem
  exact mem_of_mem_take hmem

theorem step_inv (hok : ∀ j n, (env j).connErr n = none) (h : Inv conf env s)
    (hkeep : KeepsAlive conf s) {e : Event} (hread : ∀ data, e ≠ .read data)
    (hstep : step conf env readLimit s e = some u) : Inv conf env u := by
  cases e with
  | read data => exact absurd rfl (hread data)
  | onComplete =>
    obtain ⟨request, hget, rfl⟩ := map_eq_some_iff.1 hstep
    simp only [Jobs.Execute, h.isOpen]
    exact onComplete_inv h hget
  | submit n =>
    obtain ⟨jobs, hjobs, rfl⟩ := map_eq_some_iff.1 hstep
    exact submit_inv h hjobs
  | start n =>
    obtain ⟨jobs, hjobs, rfl⟩ := map_eq_some_iff.1 hstep
    exact start_inv h hjobs
  | finish n =>
    obtain ⟨w, hw, hstep⟩ := bind_eq_some_iff.1 hstep
    obtain ⟨hended, hstep⟩ := ite_none_right_eq_some.1 hstep
    obtain ⟨jobs, hjobs, rfl⟩ := map_eq_some_iff.1 hstep
    exact finish_inv h hw hended hjobs
  | call n op =>
    obtain ⟨w, hw, hstep⟩ := bind_eq_some_iff.1 hstep
    obtain ⟨hcond, ⟨⟩⟩ := ite_none_right_eq_some.1 hstep
    rw [h.envFor]
    have hown := call_own (h.own w (h.mem_of_running hw)) hcond.1 hcond.2 op
    exact h.setWork_quiet hw hown rfl rfl rfl
  | flushResponse n =>
    obtain ⟨w, hw, hstep⟩ := bind_eq_some_iff.1 hstep
    obtain ⟨hcond, ⟨⟩⟩ := ite_none_right_eq_some.1 hstep
    rw [h.envFor]
    have hown := flushResponse_own hok (h.own w (h.mem_of_running hw)) hcond.1 hcond.2
    exact h.setWork_quiet hw hown rfl rfl rfl
  | connWrite n =>
    obtain ⟨w, hw, hstep⟩ := bind_eq_some_iff.1 hstep
    split at hstep
    · cases hstep
    · next d rest hsend =>
      cases hstep
      have hown := connWrite_own (h.own w (h.mem_of_running hw)) hsend
      have hblock : ({ w with toSend := rest, made := w.made ++ [d] } : Work).block =
          w.block ++ [(w.number, d)] := by simp [Work.block]
      exact h.setWork hw hown rfl rfl hblock
  | leave n =>
    obtain ⟨w, hw, hstep⟩ := bind_eq_some_iff.1 hstep
    obtain ⟨hcond, ⟨⟩⟩ := ite_none_right_eq_some.1 hstep
    have hmem := h.mem_of_running hw
    have hown := leave_own (h.own w hmem) hcond.1 hcond.2
    have hset := h.setWork_quiet hw hown rfl rfl rfl
    have hclosed : (s.jobs.closed || w.failed || w.request.close) = s.jobs.closed := by
      rw [(h.own w hmem).ok, h.keepsAlive hkeep hmem, Bool.or_false, Bool.or_false]
    rw [hclosed]
    exact hset

/-! ## Runs -/

theorem step_stream {e : Event} (hstep : step conf env readLimit s e = some u) :
    (∃ data, (s.parser.parse (serverProcessor conf) readLimit s.log data).err = none ∧
      s.handed = (requestsOf conf s.log).length ∧
      u = { s with
        parser := (s.parser.parse (serverProcessor conf) readLimit s.log data).parser
        log := (s.parser.parse (serverProcessor conf) readLimit s.log data).log
        read := s.read ++ [data] }) ∨
    (∀ data, e ≠ .read data) ∧ u.parser = s.parser ∧ u.log = s.log ∧ u.read = s.read := by
  cases e with
  | read data =>
    obtain ⟨hcond, ⟨⟩⟩ := ite_none_right_eq_some.1 hstep
    exact .inl ⟨data, hcond.2.2, hcond.2.1, rfl⟩
  | onComplete =>
    obtain ⟨request, -, rfl⟩ := map_eq_some_iff.1 hstep
    refine .inr ⟨nofun, ?_⟩
    split <;> exact ⟨rfl, rfl, rfl⟩
  | submit n =>
    obtain ⟨jobs, -, rfl⟩ := map_eq_some_iff.1 hstep
    exact .inr ⟨nofun, rfl, rfl, rfl⟩
  | start n =>
    obtain ⟨jobs, -, rfl⟩ := map_eq_some_iff.1 hstep
    exact .inr ⟨nofun, rfl, rfl, rfl⟩
  | finish n =>
    obtain ⟨w, -, hstep⟩ := bind_eq_some_iff.1 hstep
    split at hstep
    · obtain ⟨jobs, -, rfl⟩ := map_eq_some_iff.1 hstep
      exact .inr ⟨nofun, rfl, rfl, rfl⟩
    · cases hstep
  | call n op =>
    obtain ⟨w, -, hstep⟩ := bind_eq_some_iff.1 hstep
    split at hstep
    · cases hstep
      exact .inr ⟨nofun, rfl, rfl, rfl⟩
    · cases hstep
  | flushResponse n =>
    obtain ⟨w, -, hstep⟩ := bind_eq_some_iff.1 hstep
    split at hstep
    · cases hstep
      exact .inr ⟨nofun, rfl, rfl, rfl⟩
    · cases hstep
  | connWrite n =>
    obtain ⟨w, -, hstep⟩ := bind_eq_some_iff.1 hstep
    split at hstep
    · cases hstep
    · cases hstep
      exact .inr ⟨nofun, rfl, rfl, rfl⟩
  | leave n =>
    obtain ⟨w, -, hstep⟩ := bind_eq_some_iff.1 hstep
    split at hstep
    · cases hstep
      exact .inr ⟨nofun, rfl, rfl, rfl⟩
    · cases hstep

theorem read_inv (h : Inv conf env s) (hall : s.handed = (requestsOf conf s.log).length)
    {parser : Parser} {log : Log} {read : List Bytes} (hlog : s.log <+: log) :
    Inv conf env { s with parser := parser, log := log, read := read } := by
  refine ⟨h.jobs, h.isOpen, h.appended, h.numbers, h.handed, ?_, h.own, h.started, h.later, h.wire⟩
  obtain ⟨more, hmore⟩ := requestsOf_grows conf hlog
  rw [h.requests, ← hmore, take_append_of_le_length hall.le]

theorem run_inv (hok : ∀ j n, (env j).connErr n = none)
    (h : Reaches (step conf env readLimit) (fun _ _ => True) init s) :
    Parsed conf readLimit s ∧ (KeepsAlive conf s → Inv conf env s) := by
  refine h.invariant (P := fun s => Parsed conf readLimit s ∧ (KeepsAlive conf s → Inv conf env s))
    ⟨rfl, fun _ => init_inv⟩ ?_
  rintro t e u ⟨hparsed, hinv⟩ - hstep
  rcases step_stream hstep with ⟨data, herr, hall, rfl⟩ | ⟨hread, hparser, hlog, hread'⟩
  · have hparsed' : Parsed conf readLimit
        { t with
          parser := (t.parser.parse (serverProcessor conf) readLimit t.log data).parser
          log := (t.parser.parse (serverProcessor conf) readLimit t.log data).log
          read := t.read ++ [data] } := Parser.feed_concat hparsed herr
    have hlog := hparsed.log_grows hparsed' rfl
    refine ⟨hparsed', fun hkeep => read_inv (hinv fun r hr => ?_) hall hlog⟩
    exact hkeep r ((requestsOf_grows conf hlog).subset hr)
  · refine ⟨?_, fun hkeep => ?_⟩
    · unfold Parsed at hparsed ⊢
      rwa [hparser, hlog, hread']
    · have hkeep' : KeepsAlive conf t := by
        unfold KeepsAlive at hkeep ⊢
        rwa [← hlog]
      exact step_inv hok (hinv hkeep') hkeep' hread hstep

/-! ## Responses in request order -/

/-- What a connection that serves a pipeline promises. -/
structure Pipelined (conf : ServerConf) (env : Nat → Env) (readLimit : Int) (s : Server) :
    Prop where
  isOpen : s.jobs.closed = false
  /-- There is one response for each request handed over, and the requests are those of the stream,
  however it was cut. -/
  requests :
    let whole := (newParser false).parse (serverProcessor conf) readLimit [] s.read.flatten
    s.works.length = s.handed ∧
      s.works.map Work.request = (requestsOf conf whole.log).take s.handed
  numbered : s.works.map Work.number = range s.works.length
  /-- What was passed to the connection is what was passed for the first request, then what was
  passed for the second one, and so on. -/
  inOrder : s.wire = s.works.flatMap Work.block
  /-- A response begins when those before it are over. -/
  whole : ∀ v ∈ s.works, ∀ w ∈ s.works, v.number < w.number → w.made ≠ [] → v.stage = .ended
  /-- What was passed for a request is the beginning of its own response, and all of it when that is
  over. -/
  own : ∀ w ∈ s.works, w.made <+: (w.exchange env).sent ∧
    (w.stage = .ended → w.made.flatten = w.response env)
  /-- It does not come from a buffer that was freed, whichever buffers the pool moves. -/
  clean : ∀ w ∈ s.works, ∀ moves, (w.exchange env).Clean moves
  served : s.jobs.jobList ≠ [] → s.jobs.runners.length = 1
  /-- When nothing is left to do, every request has its response. -/
  rest : s.jobs.jobList = [] → s.handed = (requestsOf conf s.log).length →
    s.works.map Work.request = requestsOf conf s.log ∧
      s.wire.flatMap Prod.snd = s.works.flatMap (Work.response env)

theorem Work.Own.made_eq (h : w.Own env) (hended : w.stage = .ended) :
    w.made.flatten = w.response env := by
  have hsent := h.sent
  rw [h.ended hended, append_nil, h.x, Work.exchange, hended] at hsent
  rw [← hsent]
  rfl

theorem Work.kept (hroom : w.roomy env = true) : (w.exchange env).Kept := by
  have hkept := Exchange.roomy_kept (exchange_kept rfl rfl) hroom
  unfold Work.exchange
  dsimp only
  split
  · exact hkept
  · exact Exchange.flushResponse_kept hkept _

theorem Inv.whole (h : Inv conf env s) {v : Work} (hv : v ∈ s.works) (hw : w ∈ s.works)
    (hlt : v.number < w.number) (hmade : w.made ≠ []) : v.stage = .ended := by
  have hstarted : w.number < s.jobs.started.length := by
    by_contra hle
    rw [h.later w hw (Nat.le_of_not_lt hle)] at hmade
    exact hmade rfl
  rcases h.started v hv (by omega) with hended | ⟨r, hr, hphase, hjob⟩
  · exact hended
  · obtain ⟨n, hn⟩ := mem_iff_getElem?.1 hr
    have hlast := h.running_last hn hphase hjob
    omega

theorem Inv.all_over (h : Inv conf env s) (hrest : s.jobs.jobList = []) :
    ∀ w ∈ s.works, w.stage = .ended := by
  obtain ⟨hrunners, hstarted⟩ := h.jobs.serial.rest hrest
  intro w hw
  obtain ⟨j, hj⟩ := mem_iff_getElem?.1 hw
  obtain ⟨hlt, -⟩ := List.getElem?_eq_some_iff.1 hj
  have hnumber := h.numbers j w hj
  rcases h.started w hw (by rw [hstarted, h.appended, length_range]; omega) with
    hended | ⟨r, hr, -⟩
  · exact hended
  · rw [hrunners] at hr
    cases hr

/-- However the stream is cut and however the closures given to the engine are scheduled: for
requests none of which asks for the connection to be closed, and handlers none of which has
`writeChunk` use a buffer that it has freed, what is passed to the connection is the concatenation,
in request order, of their own responses. -/
theorem pipelined_responses (conf : ServerConf) {env : Nat → Env}
    (hok : ∀ j n, (env j).connErr n = none) (readLimit : Int) (s : Server)
    (h : Reaches (step conf env readLimit) (fun _ _ => True) init s)
    (hkeep : ∀ r ∈ requestsOf conf s.log, r.close = false)
    (hroom : ∀ w ∈ s.works, w.roomy env = true) : Pipelined conf env readLimit s := by
  obtain ⟨hparsed, hinv⟩ := run_inv hok h
  have hinv := hinv hkeep
  refine ⟨hinv.isOpen, ⟨hinv.handed, ?_⟩, ?_, hinv.wire, ?_, ?_, ?_, hinv.jobs.serial.served, ?_⟩
  · rw [← hparsed.log_eq]
    exact hinv.requests
  · apply ext_getElem?
    intro j
    rw [getElem?_map]
    cases hj : s.works[j]? with
    | none => rw [Option.map_none]; simpa using hj
    | some w =>
      obtain ⟨hlt, -⟩ := List.getElem?_eq_some_iff.1 hj
      rw [Option.map_some, hinv.numbers j w hj, getElem?_range hlt]
  · intro v hv w hw
    exact hinv.whole hv hw
  · intro w hw
    have hown := hinv.own w hw
    refine ⟨⟨w.toSend, ?_⟩, hown.made_eq⟩
    rw [← hown.sent, ← hown.x]
  · intro w hw
    exact (Work.kept (hroom w hw)).clean
  · intro hrest hall
    refine ⟨by rw [hinv.requests, hall, take_length], ?_⟩
    have hended := hinv.all_over hrest
    rw [hinv.wire, flatMap_assoc]
    apply flatMap_congr
    intro w hw
    rw [← (hinv.own w hw).made_eq (hended w hw), Work.block, flatMap_map]
    exact flatMap_id'

def plainConf : ServerConf where
  parseRequestURI _ := .ok ⟨[], []⟩
  parseHTTPVersion proto :=
    if proto = ascii "HTTP/1.1" then some (1, 1)
    else if proto = ascii "HTTP/1.0" then some (1, 0)
    else none
  quote := id
  maxHTTPBodySize := 0

def serve (es : List Event) : Option Server :=
  es.foldlM (guarded (step plainConf (fun _ => crEnv) 0) fun _ _ => true) init

/-- Two requests in two pieces.  The second one is handed over while the handler of the first one is
at work. -/
def pipelineRun : List Event :=
  [.read (ascii "GET / HTTP/1.1\r\n\r\nGET"), .onComplete, .submit 0, .start 0,
    .call 0 (.write (ascii "a")), .read (ascii " / HTTP/1.1\r\n\r\n"), .onComplete,
    .flushResponse 0, .connWrite 0, .leave 0, .finish 0,
    .start 0, .flushResponse 0, .connWrite 0, .leave 0, .finish 0]

/-- Two requests of HTTP/1.0 in one piece.  The second one is handed over behind the response to the
first one. -/
def http10Run : List Event :=
  [.read (ascii "GET / HTTP/1.0\r\n\r\nGET / HTTP/1.0\r\n\r\n"), .onComplete, .submit 0, .start 0,
    .flushResponse 0, .connWrite 0, .leave 0, .finish 0, .onComplete]

theorem pipelined_responses_two_requests : ∃ s, serve pipelineRun = some s ∧
    (requestsOf plainConf s.log).length = 2 ∧ s.wire.map Prod.fst = [0, 1] ∧
      s.wire.flatMap Prod.snd = s.works.flatMap (Work.response fun _ => crEnv) := by
  obtain ⟨s, hrun, hkeep, hroom, hlength, hhanded, hwire, hrest⟩ : ∃ s, serve pipelineRun = some s ∧
      (∀ r ∈ requestsOf plainConf s.log, r.close = false) ∧
        (∀ w ∈ s.works, w.roomy (fun _ => crEnv) = true) ∧
        (requestsOf plainConf s.log).length = 2 ∧
        s.handed = 2 ∧ s.wire.map Prod.fst = [0, 1] ∧ s.jobs.jobList = [] :=
    ends_of_any (by decide +kernel)
  have hreach := (Reaches.of_foldlM hrun).mono fun _ _ _ => trivial
  have hok : ∀ _ n : Nat, crEnv.connErr n = none := fun _ _ => rfl
  have hall := pipelined_responses plainConf hok 0 s hreach hkeep hroom
  exact ⟨s, hrun, hlength, hwire, (hall.rest hrest (hhanded.trans hlength.symm)).2⟩

/-- No request has a `Connection` field, and the second one, which is complete, gets no response: a
request of HTTP/1.0 that does not ask for `keep-alive` is the last one of its connection. -/
theorem http10_pipeline_is_cut : ∃ s, serve http10Run = some s ∧
    (requestsOf plainConf s.log).length = 2 ∧ (∀ r ∈ requestsOf plainConf s.log, r.header = []) ∧
      s.handed = 2 ∧ s.jobs.jobList = [] ∧ s.jobs.closed = true ∧ s.works.map Work.number = [0] ∧
      s.wire.map Prod.fst = [0] :=
  ends_of_any (by decide +kernel)

end Serve

end Nbio.Http
