import Mathlib.Logic.Function.Basic
import Nbio.Go.Text

/-!
# Client connections

A `ClientConn` sends requests over one underlying connection at a time and dials a new one when it
has none.  The parser of an underlying connection hands every response to `onResponse`, in a job
of that connection (`Execute`), and when the connection is closed the last jobs are those of
`Parser.CloseAndClean`: `Close` of the processor, then the `OnClose` callback of the parser.  Jobs
of one connection run in order, jobs of different connections at any time.

`Do`, `Reset`, `CloseWithError` and `onResponse` run under the lock of the `ClientConn`, so that
each of them is one step; a job waits for the lock.  What comes from outside (times, and the errors
of dialling and writing) is part of the event.
-/

namespace Nbio.Client

open Nbio.Go

/-- Times and durations in nanoseconds. -/
abbrev Time := Int

/-- Underlying connections, numbered in the order in which they are dialled. -/
abbrev ConnId := Nat

/-- Requests and their handlers, numbered in the order of the calls of `Do`. -/
abbrev Request := Nat

inductive Err where
  | eof
  | clientClosed
  | clientTimeout
  | clientUnsupportedSchema
  /-- An error of a proxy, of dialling, of the handshake, of a read or of a write. -/
  | other (message : Bytes)
deriving DecidableEq, Repr

structure Response where
  statusCode : Nat
  body : Bytes
deriving DecidableEq, Repr

structure Options where
  timeout : Time
  idleConnTimeout : Time

/-- On whose behalf a handler is called: with a response of a connection, because of the close
notification of a connection, or by the `ClientConn` itself. -/
inductive Cause where
  | response (k : ConnId)
  | notice (k : ConnId)
  | own
deriving DecidableEq, Repr

structure ResHandler where
  c : Option ConnId
  t : Time
  h : Request
deriving DecidableEq, Repr

structure Call where
  request : Request
  res : Option Response
  conn : Option ConnId
  err : Option Err
  cause : Cause
deriving DecidableEq, Repr

inductive Job where
  | response (res : Response)
  /-- `Close` of the processor. -/
  | closeProcessor (err : Option Err)
  /-- The callback that `Do` registers with `OnClose` of the parser. -/
  | closeParser (err : Option Err)
deriving DecidableEq, Repr

/-- An underlying connection, with the time at which its read timer fires, and its parser. -/
structure Under where
  closed : Bool
  rTimer : Option Time
  parserClosed : Bool
  jobList : List Job
deriving DecidableEq, Repr

/-- A connection of the standard library, as it is dialled. -/
structure StdConn where
  readDeadline : Option Time

/-- `NBConn` for such a connection, by `dupStdConn`: the new connection has a duplicate of the
descriptor and no timer, and the connection that was dialled is closed. -/
def NBConn (_conn : StdConn) : Under :=
  { closed := false, rTimer := none, parserClosed := false, jobList := [] }

/-- A `ClientConn` (`conn`, `handlers`, `closed`) and the underlying connections so far.  `written`
and `log` record on which connection a request was written, and the calls of the handlers. -/
structure State where
  conn : Option ConnId
  handlers : List ResHandler
  closed : Bool
  conns : ConnId → Under
  dialled : Nat
  requests : Nat
  written : List (Request × ConnId)
  log : List Call

def init : State :=
  { conn := none, handlers := [], closed := false
    conns := fun _ => { closed := false, rTimer := none, parserClosed := false, jobList := [] }
    dialled := 0, requests := 0, written := [], log := [] }

def State.setConn (s : State) (k : ConnId) (c : Under) : State :=
  { s with conns := Function.update s.conns k c }

/-! ## The methods -/

def reset (s : State) : State :=
  if s.closed then { s with conn := none, handlers := [], closed := false } else s

/-- The underlying connection `k` is closed, once; its timer is stopped and its close notification
queued. -/
def closeConn (s : State) (k : ConnId) (err : Option Err) : State :=
  let c := s.conns k
  let notice := [.closeProcessor err, .closeParser err]
  if c.closed then s
  else s.setConn k { c with closed := true, rTimer := none, jobList := c.jobList ++ notice }

/-- `SetReadDeadline` of the connection, which does nothing when that is closed. -/
def setReadDeadline (s : State) (t : Option Time) : State :=
  match s.conn with
  | none => s
  | some k => if (s.conns k).closed then s else s.setConn k { s.conns k with rTimer := t }

def failures (s : State) (cause : Cause) (err : Err) : List Call :=
  s.handlers.map fun h =>
    { request := h.h, res := none, conn := s.conn, err := some err, cause := cause }

def closeWithErrorWithoutLock (s : State) (cause : Cause) (err : Option Err) : State :=
  let s := { s with log := s.log ++ failures s cause (err.getD .eof), handlers := [] }
  match s.conn with
  | none => s
  | some k => { closeConn s k none with conn := none }

/-- `CloseWithError`; `Close` is this with `io.EOF`. -/
def closeWithError (s : State) (cause : Cause) (err : Option Err) : State :=
  if s.closed then s else closeWithErrorWithoutLock { s with closed := true } cause err

variable (o : Options)

/-- `onResponse` for a response from connection `k`: the first handler gets it, whatever
connection its request was written on. -/
def onResponse (s : State) (k : ConnId) (res : Response) (now : Time) : State :=
  match s.closed, s.handlers with
  | false, head :: rest =>
    let call : Call :=
      { request := head.h, res := some res, conn := s.conn, err := none, cause := .response k }
    let s := { s with log := s.log ++ [call], handlers := rest }
    match rest with
    | next :: _ =>
      let deadline := next.t + o.timeout
      if 0 < o.timeout then
        if deadline < now then closeWithErrorWithoutLock s .own (some .clientTimeout) else s
      else setReadDeadline s (some deadline)
    | [] =>
      setReadDeadline s (if 0 < o.idleConnTimeout then some (now + o.idleConnTimeout) else none)
  | _, _ => s

inductive Scheme where
  | http | https | other
deriving DecidableEq, Repr

/-- What a call of `Do` meets: the times it reads, in order, and the errors, if any, of what it
calls. -/
structure DoEnv where
  sent : Time
  started : Time
  dialling : Time
  proxy : Option Err
  dial : Option Err
  setup : Option Err
  addConn : Option Err
  write : Option Err

def DoEnv.dialError (env : DoEnv) (scheme : Scheme) : Option Err :=
  env.proxy <|> env.dial <|>
    if scheme = .other then some .clientUnsupportedSchema else env.setup

def sendRequest (s : State) (r : Request) (write : Option Err) : State :=
  match s.conn with
  | none => s
  | some k =>
    let s := { s with written := s.written ++ [(r, k)] }
    match write with
    | none => s
    | some e => closeWithErrorWithoutLock s .own (some e)

/-- `netDial`: with a `Timeout`, the connection that the dialer returns gets the read deadline. -/
def netDial (env : DoEnv) : StdConn :=
  { readDeadline := if 0 < o.timeout then some (env.started + o.timeout) else none }

/-- The connection that has been dialled becomes the one of the `ClientConn`, through `NBConn`. -/
def connect (s : State) (netConn : StdConn) : State :=
  { s.setConn s.dialled (NBConn netConn) with conn := some s.dialled, dialled := s.dialled + 1 }

/-- The end of `Do` for a `ClientConn` without a connection. -/
def dialAndSend (s : State) (r : Request) (scheme : Scheme) (env : DoEnv) : State :=
  if 0 < o.timeout ∧ env.started + o.timeout - env.dialling ≤ 0 then
    closeWithErrorWithoutLock s .own (some .clientTimeout)
  else
    match env.dialError scheme with
    | some e => closeWithErrorWithoutLock s .own (some e)
    | none =>
      let s := connect s (netDial o env)
      match scheme, env.addConn with
      -- for `http` the error of `AddConn` is dropped
      | .https, some e => closeWithErrorWithoutLock s .own (some e)
      | _, _ => sendRequest s r env.write

def Do (s : State) (scheme : Scheme) (env : DoEnv) : State :=
  let r := s.requests
  let s := { s with requests := r + 1 }
  if s.closed then
    let call : Call :=
      { request := r, res := none, conn := none, err := some .clientClosed, cause := .own }
    { s with log := s.log ++ [call] }
  else
    let handler : ResHandler := { c := s.conn, t := env.sent, h := r }
    let s := { s with handlers := s.handlers ++ [handler] }
    if s.conn.isSome then
      let s := if 0 < o.timeout ∧ s.handlers.length = 1 then
          setReadDeadline s (some (env.started + o.timeout))
        else s
      sendRequest s r env.write
    else dialAndSend o s r scheme env

/-! ## Steps -/

inductive Event where
  | Do (scheme : Scheme) (env : DoEnv)
  | reset
  | closeWithError (err : Option Err)
  /-- `OnComplete` of the processor of connection `k`. -/
  | onComplete (k : ConnId) (res : Response) (now : Time)
  /-- Connection `k` is closed: by its peer, after a read or parse error or a deadline. -/
  | connClosed (k : ConnId) (err : Option Err)
  /-- The next job of connection `k` runs. -/
  | runJob (k : ConnId) (now : Time)

/-- `OnComplete`: the response that switches protocols is handled at once, another one in a job,
unless the connection is closed. -/
def onComplete (s : State) (k : ConnId) (res : Response) (now : Time) : State :=
  let c := s.conns k
  if res.statusCode = 101 then onResponse o s k res now
  else if c.closed then s
  else s.setConn k { c with jobList := c.jobList ++ [.response res] }

def Job.run (s : State) (k : ConnId) (now : Time) : Job → State
  | .response res => onResponse o s k res now
  | .closeProcessor err =>
    closeWithError (s.setConn k { s.conns k with parserClosed := true }) (.notice k) err
  | .closeParser err => closeWithError s (.notice k) err

def popJob (s : State) (k : ConnId) : State :=
  s.setConn k { s.conns k with jobList := (s.conns k).jobList.tail }

/-- One step; `none` where the event cannot happen. -/
def step (s : State) : Event → Option State
  | .Do scheme env => some (Do o s scheme env)
  | .reset => some (reset s)
  | .closeWithError err => some (closeWithError s .own err)
  | .onComplete k res now =>
    if k < s.dialled ∧ (s.conns k).parserClosed = false then some (onComplete o s k res now)
    else none
  | .connClosed k err => if k < s.dialled then some (closeConn s k err) else none
  | .runJob k now => (s.conns k).jobList.head?.map fun job => job.run o (popJob s k) k now

end Nbio.Client
