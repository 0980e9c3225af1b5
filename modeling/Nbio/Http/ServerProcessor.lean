import Nbio.Http.Response
import Nbio.Http.Segmentation

/-!
# The processor of a server connection

A `ServerProcessor` builds a request from the calls of the parser; `OnComplete` decides whether the
connection is to be closed behind the response, and hands the request over.  What it looks up in
`net/url` and `net/http` is given by a `ServerConf`.
-/

namespace Nbio.Http

open Nbio.Go

structure Url where
  scheme : Bytes
  host : Bytes
deriving DecidableEq, Repr

structure ServerConf where
  /-- `url.ParseRequestURI`; an error is its text. -/
  parseRequestURI : Bytes → Except Bytes Url
  parseHTTPVersion : Bytes → Option (Int × Int)
  /-- The verb `%q`. -/
  quote : Bytes → Bytes
  maxHTTPBodySize : Int

structure HttpRequest where
  method : Bytes
  requestURI : Bytes
  url : Url
  host : Bytes
  proto : Bytes
  protoMajor : Int
  protoMinor : Int
  header : Header
  contentLength : Int
  transferEncoding : List Bytes
  trailer : Header
  /-- What `BodyReader` has been given; `none` is a `Body` that is nil. -/
  body : Option Bytes
  close : Bool
deriving DecidableEq, Repr

def emptyRequest : HttpRequest :=
  { method := [], requestURI := [], url := ⟨[], []⟩, host := [], proto := [], protoMajor := 0,
    protoMinor := 0, header := [], contentLength := 0, transferEncoding := [], trailer := [],
    body := none, close := false }

namespace HttpRequest

/-- `OnURL`: the error and the request. -/
def setURL (conf : ServerConf) (r : HttpRequest) (uri : Bytes) : Option Bytes × HttpRequest :=
  let r := { r with requestURI := uri }
  let justAuthority := r.method = ascii "CONNECT" ∧ uri.head? ≠ some 47
  match conf.parseRequestURI (if justAuthority then ascii "http://" ++ uri else uri) with
  | .error e => (some e, r)
  | .ok u => (none, { r with url := if justAuthority then { u with scheme := [] } else u })

def setProto (conf : ServerConf) (r : HttpRequest) (proto : Bytes) : Option Bytes × HttpRequest :=
  match conf.parseHTTPVersion proto with
  | none => (some (ascii "malformed HTTP version " ++ conf.quote proto), r)
  | some (major, minor) => (none, { r with proto, protoMajor := major, protoMinor := minor })

/-- `OnBody` with `BodyReader.append`. -/
def addBody (conf : ServerConf) (r : HttpRequest) (data : Bytes) : Option Bytes × HttpRequest :=
  let body := r.body.getD []
  if data = [] then (none, { r with body := some body })
  else if 0 < conf.maxHTTPBodySize ∧ conf.maxHTTPBodySize < data.length + body.length then
    (some (ascii "invalid http message: too long"), { r with body := some body })
  else (none, { r with body := some (body ++ data) })

/-- `strings.Trim(v, " ")`. -/
def trimSpaces (v : Bytes) : Bytes := (v.dropWhile (· == 32)).rdropWhile (· == 32)

/-- The loop over the values of `Connection`: `hasClose` and `keepAlive`. -/
def connectionValues (keepAlive : Bool) : List Bytes → Bool × Bool
  | [] => (false, keepAlive)
  | v :: vs =>
    let v := toLower (trimSpaces v)
    if v = ascii "close" then (true, keepAlive)
    else connectionValues (keepAlive || v = ascii "keep-alive") vs

/-- What `OnComplete` sets `Close` to. -/
def wantsClose (r : HttpRequest) : Bool :=
  if r.protoMajor < 1 then true
  else
    let (hasClose, keepAlive) :=
      connectionValues false ((r.header.lookup (ascii "Connection")).getD [])
    if r.protoMajor = 1 ∧ r.protoMinor = 0 then hasClose || !keepAlive else hasClose

def completed (r : HttpRequest) : HttpRequest :=
  let r := if r.url.host = [] then
      let host := r.header.get (ascii "Host")
      { r with url := { r.url with host := host }, host := host }
    else r
  { r with
    transferEncoding := (r.header.lookup transferEncodingHeader).getD []
    close := r.wantsClose
    body := some (r.body.getD []) }

def info (r : HttpRequest) : RequestInfo :=
  { proto := r.proto, protoMajor := r.protoMajor, protoMinor := r.protoMinor, close := r.close }

end HttpRequest

/-- A `ServerProcessor`; `requests` records the requests that `OnComplete` has handed over. -/
structure ServerProcessor where
  request : Option HttpRequest
  requests : List HttpRequest
deriving DecidableEq, Repr

namespace ServerProcessor

def new : ServerProcessor := { request := none, requests := [] }

/-- A method other than `OnMethod` and `OnComplete`, on the request that is being built. -/
def onRequest (conf : ServerConf) (r : HttpRequest) : Callback → Option Bytes × HttpRequest
  | .onURL uri => r.setURL conf uri
  | .onProto proto => r.setProto conf proto
  | .onHeader key value => (none, { r with header := r.header.add key value })
  | .onContentLength l => (none, { r with contentLength := l })
  | .onBody data => r.addBody conf data
  | .onTrailerHeader key value => (none, { r with trailer := r.trailer.add key value })
  | _ => (none, r)

/-- A call: the error, of the methods that return one, and the processor.  The parser calls
`OnMethod` first, so that no other method meets a request that is nil. -/
def on (conf : ServerConf) (p : ServerProcessor) (call : Callback) :
    Option Bytes × ServerProcessor :=
  match call, p.request with
  | .onMethod method, request =>
    (none, { p with request := some { request.getD emptyRequest with method := method } })
  | _, none => (none, p)
  | .onComplete, some r => (none, { request := none, requests := p.requests ++ [r.completed] })
  | call, some r =>
    let (err, r) := onRequest conf r call
    (err, { p with request := some r })

def after (conf : ServerConf) (log : Log) : ServerProcessor :=
  log.foldl (fun p call => (p.on conf call).2) new

end ServerProcessor

def requestsOf (conf : ServerConf) (log : Log) : List HttpRequest :=
  (ServerProcessor.after conf log).requests

/-- A server's processor as the parser sees it, for handlers that upgrade no connection. -/
def serverProcessor (conf : ServerConf) : Processor where
  result log := log.getLast?.bind fun call =>
    ((ServerProcessor.after conf log.dropLast).on conf call).1
  closer _ := false

theorem serverProcessor_neverUpgrades (conf : ServerConf) :
    (serverProcessor conf).NeverUpgrades := fun _ => rfl

theorem ServerProcessor.on_requests (conf : ServerConf) (p : ServerProcessor) (call : Callback) :
    p.requests <+: (p.on conf call).2.requests := by
  unfold on
  split
  · exact List.prefix_rfl
  · exact List.prefix_rfl
  · exact List.prefix_append _ _
  · exact List.prefix_rfl

theorem requestsOf_grows (conf : ServerConf) {log log' : Log} (h : log <+: log') :
    requestsOf conf log <+: requestsOf conf log' := by
  obtain ⟨calls, rfl⟩ := h
  unfold requestsOf ServerProcessor.after
  rw [List.foldl_append]
  generalize log.foldl (fun p call => (p.on conf call).2) ServerProcessor.new = p
  induction calls generalizing p with
  | nil => exact List.prefix_rfl
  | cons call calls ih => exact (p.on_requests conf call).trans (ih _)

end Nbio.Http
