import Nbio.Http.BufferUse

/-!
# Responses that are not chunked

What a response with an announced length puts on the wire, for any sequence of `Write` and `Flush`.
A `Sheet` says what such a response is: the head once it is encoded, and the body bytes accepted so
far.  The buffers of the response writer are a way to hold a sheet (`Plain`): what has been sent,
what waits in `buffer` and what waits in `bodyBuffer` are the head and the body, in this order.
-/

namespace Nbio.Http

open Nbio.Go List

namespace Header

theorem lookup_set_self (h : Header) (k v : Bytes) : (h.set k v).lookup k = some [v] := by
  unfold set
  cases hk : h.lookup k with
  | none =>
    rw [lookup_append_single, hk, if_pos rfl]
    rfl
  | some vs =>
    rw [lookup_map fun _ => [v], if_pos rfl, hk]
    rfl

theorem get_delete_self (h : Header) (k : Bytes) : (h.delete k).get k = [] := by
  rw [get, lookup_delete, if_pos rfl]

/-- The header without a `Content-Length` that is not a number or is negative. -/
def checkLength (h : Header) : Header :=
  if h.get contentLengthHeader = [] then h
  else
    match parseInt (h.get contentLengthHeader) 10 64 with
    | .ok v => if 0 ≤ v then h else h.delete contentLengthHeader
    | .error _ => h.delete contentLengthHeader

theorem checkLength_of_get_nil {h : Header} (hnil : h.get contentLengthHeader = []) :
    h.checkLength = h :=
  if_pos hnil

theorem checkLength_eq (h : Header) :
    h.checkLength = h ∨ h.checkLength = h.delete contentLengthHeader := by
  unfold checkLength
  repeat' split
  all_goals simp

@[simp] theorem checkLength_checkLength (h : Header) :
    h.checkLength.checkLength = h.checkLength := by
  rcases h.checkLength_eq with heq | heq
  · rw [heq, heq]
  · rw [heq]
    exact checkLength_of_get_nil (h.get_delete_self _)

end Header

/-! ## Preparing a response twice -/

namespace Response

variable {env : Env} {res r : Response}

def unwritten (res : Response) : Bool := !res.hijacked && res.statusCode == 0

/-- The response `res` with the parts taken from `r` that the calls go on changing. -/
def progress (res r : Response) : Response :=
  { res with
    trailer := r.trailer, buffer := r.buffer, bodyBuffer := r.bodyBuffer
    contentLen := r.contentLen, bodyWritten := r.bodyWritten, headEncoded := r.headEncoded
    hasBody := r.hasBody }

theorem writeHeader_unwritten (h : res.unwritten = true) :
    res.writeHeader env 200 = { res with
      status := if env.statusText 200 = [] then res.status else env.statusText 200
      statusCode := if env.statusText 200 = [] then res.statusCode else 200
      header := res.header.checkLength } := by
  have hc : (!res.hijacked && res.statusCode == 0 && res.statusCode != 200) = true := by
    have hs : res.statusCode = 0 := by
      simp only [unwritten, Bool.and_eq_true, beq_iff_eq] at h
      exact h.2
    rw [unwritten] at h
    rw [h, hs]
    rfl
  unfold writeHeader Header.checkLength
  rw [if_pos hc]
  by_cases ht : env.statusText 200 = [] <;> by_cases hcl : res.header.get contentLengthHeader = []
  · simp [ht, hcl]
  · cases hp : parseInt (res.header.get contentLengthHeader) 10 64 with
    | error e => simp [ht, hcl, hp]
    | ok v => by_cases hv : 0 ≤ v <;> simp [ht, hcl, hp, hv]
  · simp [ht, hcl]
  · cases hp : parseInt (res.header.get contentLengthHeader) 10 64 with
    | error e => simp [ht, hcl, hp]
    | ok v => by_cases hv : 0 ≤ v <;> simp [ht, hcl, hp, hv]

theorem writeHeader_written (h : res.unwritten = false) : res.writeHeader env 200 = res := by
  rw [unwritten] at h
  rw [writeHeader, h]
  rfl

theorem writeHeader_self (h : res.unwritten = true →
    env.statusText 200 = [] ∧ res.header.checkLength = res.header) :
    res.writeHeader env 200 = res := by
  cases hu : res.unwritten with
  | false => exact writeHeader_written hu
  | true =>
    obtain ⟨ht, hh⟩ := h hu
    rw [writeHeader_unwritten hu, hh, ht]
    rfl

theorem checkChunked_done (h : res.chunkChecked = true) : res.checkChunked = res := if_pos h

theorem checkChunked_header (res : Response) : res.checkChunked.header = res.header ∨
    res.checkChunked.header.get contentLengthHeader = [] := by
  unfold checkChunked
  split
  · exact .inl rfl
  · simp only
    repeat' split
    · exact .inr (Header.get_delete_self _ _)
    · exact .inr (Header.get_delete_self _ _)
    · exact .inl rfl

def Settled (env : Env) (res : Response) : Prop := res.prepared env = res

theorem prepared_settled (env : Env) (res : Response) : (res.prepared env).Settled env := by
  obtain ⟨c, hd, hcheck⟩ := (res.writeHeader env 200).checkChunked_eq
  have hself : (res.prepared env).writeHeader env 200 = res.prepared env := by
    refine writeHeader_self fun hu => ?_
    have hu' : (res.writeHeader env 200).unwritten = true := by
      rw [prepared, hcheck] at hu
      exact hu
    cases hres : res.unwritten with
    | false =>
      rw [writeHeader_written hres, hres] at hu'
      cases hu'
    | true =>
      have hw : res.writeHeader env 200 = _ := writeHeader_unwritten hres
      have ht : env.statusText 200 = [] := by
        by_contra ht
        simp [hw, unwritten, ht] at hu'
      refine ⟨ht, ?_⟩
      rcases checkChunked_header (res.writeHeader env 200) with h | h
      · rw [prepared, h, hw, Header.checkLength_checkLength]
      · exact Header.checkLength_of_get_nil h
  have hchecked : (res.prepared env).chunkChecked = true := by
    rw [prepared, hcheck]
  rw [Settled, prepared, hself, checkChunked_done hchecked]

theorem writeHeader_progress (env : Env) (res r : Response) :
    (res.progress r).writeHeader env 200 = (res.writeHeader env 200).progress r := by
  cases hu : res.unwritten with
  | false =>
    have hu' : (res.progress r).unwritten = false := hu
    rw [writeHeader_written hu, writeHeader_written hu']
  | true =>
    have hu' : (res.progress r).unwritten = true := hu
    rw [writeHeader_unwritten hu, writeHeader_unwritten hu']
    rfl

def asksChunked (res : Response) : Bool :=
  ((res.header.lookup transferEncodingHeader).getD []).contains (ascii "chunked")

theorem checkChunked_first (h : res.chunkChecked = false) : res.checkChunked = { res with
    chunkChecked := true
    chunked := res.asksChunked || res.chunked || res.fallsBackToChunking
    header := if res.asksChunked then res.header.delete contentLengthHeader
      else if res.chunked || res.fallsBackToChunking then
        (res.header.set transferEncodingHeader (ascii "chunked")).delete contentLengthHeader
      else res.header } := by
  rw [checkChunked, h]
  change (if res.asksChunked = true then _ else if (res.chunked || res.fallsBackToChunking) = true
    then _ else _) = _
  cases res.asksChunked with
  | true => rfl
  | false =>
    cases hf : res.chunked || res.fallsBackToChunking with
    | true => simp [hf]
    | false =>
      rw [Bool.or_assoc, hf]
      rw [Bool.or_eq_false_iff] at hf
      simp [hf.1]

theorem checkChunked_progress (res r : Response) :
    (res.progress r).checkChunked = res.checkChunked.progress r := by
  cases hc : res.chunkChecked with
  | true =>
    have hc' : (res.progress r).chunkChecked = true := hc
    rw [checkChunked_done hc, checkChunked_done hc']
  | false =>
    have hc' : (res.progress r).chunkChecked = false := hc
    rw [checkChunked_first hc, checkChunked_first hc']
    rfl

theorem Settled.progress (h : res.Settled env) (r : Response) : (res.progress r).Settled env := by
  rw [Settled, prepared, writeHeader_progress, checkChunked_progress]
  exact congrArg (Response.progress · r) h

def declared (res : Response) : Except ResponseErr Int :=
  if res.header.get contentLengthHeader = [] then .ok 0
  else
    match parseInt (res.header.get contentLengthHeader) 10 64 with
    | .ok v => .ok v
    | .error e => .error (.parseInt (res.header.get contentLengthHeader) e)

theorem contentLength_declared (h : 0 < res.contentLen → res.declared = .ok res.contentLen) :
    ∃ n, res.contentLength = (res.declared, { res with contentLen := n }) ∧
      (0 < n → res.declared = .ok n) := by
  unfold contentLength
  by_cases hpos : 0 < res.contentLen
  · exact ⟨res.contentLen, by rw [if_pos hpos, h hpos], h⟩
  · rw [if_neg hpos]
    unfold declared
    by_cases hnil : res.header.get contentLengthHeader = []
    · exact ⟨res.contentLen, by rw [if_pos hnil, if_pos hnil], fun hp => absurd hp hpos⟩
    · simp only [if_neg hnil]
      cases parseInt (res.header.get contentLengthHeader) 10 64 with
      | ok v => exact ⟨v, rfl, fun _ => rfl⟩
      | error e => exact ⟨res.contentLen, rfl, fun hp => absurd hp hpos⟩

theorem contentLength_setBody (res : Response) (hasBody : Bool) :
    { res with hasBody := hasBody }.contentLength =
      (res.contentLength.1, { res.contentLength.2 with hasBody := hasBody }) := by
  unfold contentLength
  dsimp only
  split
  · rfl
  · split
    · rfl
    · split <;> rfl

def headOf (env : Env) (res : Response) (hasBody : Bool) (body : Bytes) : Bytes :=
  { res with hasBody := hasBody, bodyBuffer := some ⟨0, body⟩ }.headBlock env

theorem headBlock_progress (env : Env) (res r : Response) :
    (res.progress r).headBlock env = res.headOf env r.hasBody (bufData r.bodyBuffer) := by
  cases hb : r.bodyBuffer with
  | none => simp only [progress, hb]; rfl
  | some b => simp only [progress, hb]; rfl

end Response

/-! ## Sheets -/

/-- What a response that is not chunked is for: the head, once it is encoded, and the bytes of
the body. -/
structure Sheet where
  head : Option Bytes
  hasBody : Bool
  body : Bytes
deriving DecidableEq, Repr

variable {data : Bytes}

namespace Sheet

def blank : Sheet := { head := none, hasBody := false, body := [] }

variable (env : Env) (res : Response)

def encode (s : Sheet) : Sheet :=
  { s with head := some (s.head.getD (res.headOf env s.hasBody s.body)) }

/-- Write data that is not empty: a positive length that has been declared has the head encoded
and is a bound for the body. -/
def write (s : Sheet) (data : Bytes) : Sheet :=
  let s := { s with hasBody := true }
  match res.declared with
  | .error _ => s
  | .ok cl =>
    if 0 < cl then
      if cl < s.body.length + data.length then s
      else { s.encode env res with body := s.body ++ data }
    else { s with body := s.body ++ data }

def call (s : Sheet) : Op → Sheet
  | .write [] => s
  | .write data => s.write env res data
  | .flush => s.encode env res

def wire (s : Sheet) : Bytes := s.head.getD (res.headOf env s.hasBody s.body) ++ s.body

theorem call_write {s : Sheet} (hne : data ≠ []) :
    s.call env res (.write data) = s.write env res data := by
  cases data with
  | nil => exact absurd rfl hne
  | cons c cs => rfl

theorem encode_of_some {s : Sheet} (h : s.head ≠ none) : s.encode env res = s := by
  obtain ⟨hd, hhd⟩ := Option.ne_none_iff_exists'.1 h
  rw [encode, hhd, Option.getD_some, ← hhd]

end Sheet

/-! ## The body buffer -/

namespace Exchange

variable {env : Env} {x x₀ y : Exchange} {b : Buf} {cl : Int} {data : Bytes}

def whole (x : Exchange) : Bytes := x.out ++ bufData x.res.bodyBuffer

theorem whole_eq (x : Exchange) :
    x.whole = x.sent.flatten ++ bufData x.res.buffer ++ bufData x.res.bodyBuffer := rfl

theorem connWrite_outcome (env : Env) (x : Exchange) (data : Bytes) :
    (x.connWrite env data).2.res = x.res ∧
      ((x.connWrite env data).1 = (↑data.length, none) ∧
          (x.connWrite env data).2.sent = x.sent ++ [data] ∨
        ∃ n e, (x.connWrite env data).1 = (n, some e) ∧
          (x.connWrite env data).2.sent = x.sent ∧ ∃ i, env.connErr i ≠ none) := by
  unfold connWrite
  cases h : env.connErr x.connWrites with
  | none => exact ⟨rfl, .inl ⟨rfl, rfl⟩⟩
  | some e => exact ⟨rfl, .inr ⟨_, _, rfl, rfl, _, by rw [h]; nofun⟩⟩

theorem send_outcome (env : Env) (x : Exchange) (b : Buf) :
    (x.send env b).2.res = x.res ∧
      ((x.send env b).1 = (↑b.data.length, none) ∧
          (x.send env b).2.sent = x.sent ++ [b.data] ∨
        ∃ n e, (x.send env b).1 = (n, some e) ∧
          (x.send env b).2.sent = x.sent ∧ ∃ i, env.connErr i ≠ none) :=
  connWrite_outcome env { x with mempool := x.mempool ++ [.send b.id] } b.data

/-- How `y` follows `x` by taking `data` into the body: all of it is on its way if no write to
the connection fails, and no more than what is counted in any case. -/
structure Takes (env : Env) (x y : Exchange) (data : Bytes) : Prop where
  res : y.res = { x.res with
    buffer := none, bodyBuffer := y.res.bodyBuffer, bodyWritten := y.res.bodyWritten }
  le : y.whole.length + x.res.bodyWritten ≤ x.whole.length + y.res.bodyWritten
  counted : y.res.bodyWritten = x.res.bodyWritten ∨
    y.res.bodyWritten = x.res.bodyWritten + data.length
  whole : (∀ n, env.connErr n = none) →
    y.whole = x.whole ++ data ∧ y.res.bodyWritten = x.res.bodyWritten + data.length

theorem Takes.of_whole (hres : y.res = { x.res with
      buffer := none, bodyBuffer := y.res.bodyBuffer
      bodyWritten := x.res.bodyWritten + data.length })
    (hwhole : y.whole = x.whole ++ data) : Takes env x y data where
  res := by rw [hres]
  le := by
    rw [hwhole, hres, length_append]
    push_cast
    omega
  counted := .inr (by rw [hres])
  whole _ := ⟨hwhole, by rw [hres]⟩

theorem Takes.of_failure {e : Nat} (he : env.connErr e ≠ none) (hres : y.res = { x.res with
      buffer := none, bodyBuffer := y.res.bodyBuffer, bodyWritten := y.res.bodyWritten })
    (hcounted : y.res.bodyWritten = x.res.bodyWritten ∨
      y.res.bodyWritten = x.res.bodyWritten + data.length)
    (hle : y.whole.length ≤ x.whole.length) : Takes env x y data where
  res := hres
  le := by
    rcases hcounted with h | h <;> omega
  counted := hcounted
  whole h := absurd (h e) he

/-- The response of `x` is that of `x₀` but for the buffers, and has no `buffer`. -/
def Rebuffers (x₀ x : Exchange) : Prop :=
  x.res = { x₀.res with buffer := none, bodyBuffer := x.res.bodyBuffer }

theorem Rebuffers.buffer (h : Rebuffers x₀ x) : x.res.buffer = none := by rw [h]

theorem Rebuffers.of_res (h : Rebuffers x₀ x) (hres : y.res = x.res) : Rebuffers x₀ y := by
  rw [Rebuffers, hres]
  exact h

theorem Rebuffers.written (h : Rebuffers x₀ x) (n : Int) : (x.addWritten n).res = { x₀.res with
    buffer := none, bodyBuffer := x.res.bodyBuffer, bodyWritten := x₀.res.bodyWritten + n } := by
  unfold addWritten
  rw [h]

theorem cacheBody_takes (h₀ : Rebuffers x₀ x) (hwhole : x₀.whole = x.sent.flatten ++ b.data) :
    Takes env x₀ (x.cacheBody env cl b data).2 data := by
  unfold cacheBody
  generalize happ : (x.addWritten data.length).append b data = r
  obtain ⟨c, x'⟩ := r
  obtain ⟨hc, hx'⟩ := Prod.mk.inj happ
  have hdata : c.data = b.data ++ data := by rw [← hc]
  have hsent : x'.sent = x.sent := by
    rw [← hx']
    rfl
  have hres := h₀.written data.length
  rw [show (x.addWritten data.length).res = x'.res by rw [← hx']] at hres
  dsimp only
  by_cases hfull : 0 < cl ∧ maxPacketSize ≤ c.data.length
  · rw [if_pos hfull]
    obtain ⟨hres', ⟨hr, hs⟩ | ⟨n, e, hr, hs, i, hi⟩⟩ := send_outcome env x' c
    · simp only [hr]
      apply Takes.of_whole
      · simp [setBodyBuffer, reslice, hres', hres]
      · rw [hwhole]
        simp [whole_eq, setBodyBuffer, reslice, hres', hres, hs, hsent, hdata]
    · simp only [hr]
      refine Takes.of_failure hi ?_ (.inr ?_) ?_
      · simp [setBodyBuffer, free, hres', hres]
      · simp [setBodyBuffer, free, hres', hres]
      · rw [hwhole]
        simp [whole_eq, setBodyBuffer, free, hres', hres, hs, hsent]
  · rw [if_neg hfull]
    apply Takes.of_whole
    · simp [setBodyBuffer, hres]
    · rw [hwhole]
      simp [whole_eq, setBodyBuffer, hres, hsent, hdata]

theorem connWrite_takes (h₀ : Rebuffers x₀ x) (hwhole : x₀.whole = x.sent.flatten)
    (hbody : x.res.bodyBuffer = none) :
    Takes env x₀ ((x.addWritten data.length).connWrite env data).2 data := by
  have hres := h₀.written data.length
  rw [hbody] at hres
  have hsent : (x.addWritten data.length).sent = x.sent := rfl
  obtain ⟨hres', ⟨-, hs⟩ | ⟨n, e, -, hs, i, hi⟩⟩ :=
    connWrite_outcome env (x.addWritten data.length) data
  · apply Takes.of_whole
    · simp [hres', hres]
    · rw [hwhole]
      simp [whole_eq, hres', hres, hs, hsent]
  · refine Takes.of_failure hi ?_ (.inr ?_) ?_
    · simp [hres', hres]
    · simp [hres', hres]
    · rw [hwhole]
      simp [whole_eq, hres', hres, hs, hsent]

theorem cacheEmpty_takes (h₀ : Rebuffers x₀ x) (hwhole : x₀.whole = x.sent.flatten)
    (hb : b.data = []) :
    Takes env x₀ (if maxPacketSize ≤ data.length then
      (((x.addWritten data.length).free b).setBodyBuffer none).connWrite env data
      else x.cacheBody env cl b data).2 data := by
  by_cases hdirect : maxPacketSize ≤ data.length
  · rw [if_pos hdirect]
    refine connWrite_takes (x := (x.free b).setBodyBuffer none) ?_ hwhole rfl
    rw [Rebuffers] at h₀ ⊢
    simp only [setBodyBuffer, free]
    rw [h₀]
  · rw [if_neg hdirect]
    exact cacheBody_takes h₀ (by simp [hwhole, hb])

theorem appendBody_takes (h₀ : Rebuffers x₀ x) (hwhole : x₀.whole = x.whole) :
    Takes env x₀ (x.appendBody env cl data).2 data := by
  rw [x.whole_eq, h₀.buffer, bufData_none, append_nil] at hwhole
  unfold appendBody
  cases hbody : x.res.bodyBuffer with
  | none =>
    rw [hbody, bufData_none, append_nil] at hwhole
    dsimp only
    split
    · exact connWrite_takes h₀ hwhole hbody
    · refine cacheBody_takes h₀ ?_
      rw [hwhole]
      simp [reslice, malloc]
  | some b =>
    rw [hbody] at hwhole
    dsimp only
    split
    · by_cases hlen : 0 < b.data.length
      · simp only [if_pos hlen]
        obtain ⟨hres, ⟨hr, hs⟩ | ⟨n, e, hr, hs, i, hi⟩⟩ := send_outcome env x b
        · simp only [hr]
          exact cacheEmpty_takes (h₀.of_res hres) (by simp [hwhole, reslice, hs])
            (b := ((x.send env b).2.reslice b).1) rfl
        · simp only [hr]
          refine Takes.of_failure hi ?_ (.inl ?_) ?_
          · simp only [setBodyBuffer, free, reslice, hres]
            rw [h₀]
          · simp only [setBodyBuffer, free, reslice, hres]
            rw [h₀]
          · rw [hwhole]
            simp [whole_eq, setBodyBuffer, free, reslice, hres, hs, h₀.buffer]
      · simp only [if_neg hlen]
        have hb : b.data = [] := length_eq_zero_iff.1 (by omega)
        exact cacheEmpty_takes h₀ (by simp [hwhole, hb]) hb
    · exact cacheBody_takes h₀ hwhole

theorem appendBody_caches (hcl : ¬ 0 < cl) (env : Env) (x : Exchange) (data : Bytes) :
    ∃ b, b.data = bufData x.res.bodyBuffer ++ data ∧
      (x.appendBody env cl data).1 = (↑data.length, none) ∧
      (x.appendBody env cl data).2.sent = x.sent ∧
      (x.appendBody env cl data).2.res = { x.res with
        bodyBuffer := some b, bodyWritten := x.res.bodyWritten + data.length } := by
  unfold appendBody
  cases hbody : x.res.bodyBuffer with
  | none =>
    simp only [hcl, false_and, if_false, cacheBody]
    exact ⟨_, rfl, trivial, rfl, rfl⟩
  | some b =>
    simp only [hcl, false_and, if_false, cacheBody]
    exact ⟨_, rfl, trivial, rfl, rfl⟩

theorem eoncodeHead_written (env : Env) (x : Exchange) :
    (x.eoncodeHead env).res.bodyWritten = x.res.bodyWritten := by
  unfold eoncodeHead
  split <;> rfl

/-- `Write` once the head is encoded: the head is sent, or is taken as the body buffer. -/
def writeBody (env : Env) (x : Exchange) (cl : Int) (data : Bytes) :
    (Int × Option ResponseErr) × Exchange :=
  match x.res.buffer with
  | none => (x.setBuffer none).appendBody env cl data
  | some b =>
    if b.data.length + data.length < maxPacketSize then
      ((x.setBuffer none).setBodyBuffer (some b)).appendBody env cl data
    else
      let (r, y) := (x.setBuffer none).send env b
      let y := y.free b
      match r.2 with
      | some e => ((0, some e), y)
      | none => y.appendBody env cl data

theorem write_cases (hne : data ≠ []) (hconn : x.res.conn = true)
    (hchunked : (x.res.prepared env).chunked = false) {r : Except ResponseErr Int} {n : Int}
    (hlen : (x.res.prepared env).contentLength = (r, { x.res.prepared env with contentLen := n })) :
    let y := { x with res := { x.res.prepared env with hasBody := true, contentLen := n } }
    (∀ e, r = .error e → x.write env data = ((0, some e), y)) ∧
    (∀ cl, r = .ok cl → 0 < cl → cl < (x.res.prepared env).bodyWritten + data.length →
      x.write env data = ((0, some .contentLength), y)) ∧
    (∀ cl, r = .ok cl → 0 < cl → ¬ cl < (x.res.prepared env).bodyWritten + data.length →
      x.write env data = (y.eoncodeHead env).writeBody env cl data) ∧
    (∀ cl, r = .ok cl → ¬ 0 < cl → x.write env data = y.appendBody env cl data) := by
  have hcall : ¬ (data = [] ∨ x.res.conn = false) := by simp [hne, hconn]
  have hprep : (x.res.writeHeader env 200).checkChunked = x.res.prepared env := rfl
  have hbody : { x.res.prepared env with hasBody := true }.contentLength =
      (r, { x.res.prepared env with hasBody := true, contentLen := n }) := by
    rw [Response.contentLength_setBody, hlen]
  rw [write, if_neg hcall]
  simp only [hprep]
  rw [if_neg (by rw [hchunked]; exact Bool.false_ne_true), hbody]
  refine ⟨fun e he => by rw [he], ?_, ?_, ?_⟩
  · intro cl hcl hpos hlong
    simp only [hcl, hpos, hlong, and_self, if_true]
  · intro cl hcl hpos hfits
    simp only [hcl, hpos, hfits]
    rfl
  · intro cl hcl hpos
    simp only [hcl, hpos, false_and, if_false]

theorem writeBody_takes (halone : x.res.buffer ≠ none → bufData x.res.bodyBuffer = []) :
    Takes env x (x.writeBody env cl data).2 data := by
  unfold writeBody
  cases hb : x.res.buffer with
  | none =>
    refine appendBody_takes rfl ?_
    simp [whole_eq, setBuffer, hb]
  | some b =>
    have hbody := halone (by simp [hb])
    dsimp only
    split
    · refine appendBody_takes rfl ?_
      simp [whole_eq, setBuffer, setBodyBuffer, hb, hbody]
    · obtain ⟨hres, hsend⟩ := send_outcome env (x.setBuffer none) b
      generalize (x.setBuffer none).send env b = r at hres hsend
      obtain ⟨r, y⟩ := r
      have hyres : (y.free b).res = { x.res with buffer := none } := hres
      obtain ⟨rfl, hs⟩ | ⟨n, e, rfl, hs, i, hi⟩ := hsend
      · have hysent : (y.free b).sent = x.sent ++ [b.data] := hs
        refine appendBody_takes (by rw [Rebuffers, hyres]) ?_
        simp [whole_eq, hyres, hysent, hb]
      · have hysent : (y.free b).sent = x.sent := hs
        refine Takes.of_failure hi (by rw [hyres]) (.inl (by rw [hyres])) ?_
        simp [whole_eq, hyres, hysent]

end Exchange

/-! ## Calls -/

/-- A response that is not chunked, with its status and its header decided. -/
structure Response.IsPlain (env : Env) (res : Response) : Prop where
  conn : res.conn = true
  hijacked : res.hijacked = false
  chunked : res.chunked = false
  settled : res.Settled env

def Response.Declares (res : Response) (cl : Int) : Prop := res.declared = .ok cl ∧ 0 < cl

/-- The exchange holds the sheet: the head once it is encoded, and all of the body if no write
fails. -/
structure Plain (env : Env) (res : Response) (x : Exchange) (s : Sheet) : Prop where
  same : x.res = res.progress x.res
  memo : 0 < x.res.contentLen → res.declared = .ok x.res.contentLen
  head : x.res.headEncoded = s.head.isSome
  hasBody : x.res.hasBody = s.hasBody
  /-- A buffer that is made the body buffer replaces an empty one. -/
  alone : ∀ cl, res.Declares cl → s.head = none ∨ x.res.buffer ≠ none →
    bufData x.res.bodyBuffer = []
  bounded : ∀ cl, res.Declares cl → x.res.bodyWritten ≤ cl
  counted : (¬ ∃ cl, res.Declares cl) → x.res.bodyWritten = s.body.length
  unsent : s.head = none → x.out = [] ∧ bufData x.res.bodyBuffer = s.body ∧
    x.res.bodyWritten = s.body.length
  le : ∀ h, s.head = some h → x.whole.length ≤ h.length + x.res.bodyWritten
  whole : (∀ n, env.connErr n = none) →
    x.whole = s.head.getD [] ++ s.body ∧ x.res.bodyWritten = s.body.length

namespace Plain

variable {env : Env} {res : Response} {x : Exchange} {s : Sheet}

variable (h : Plain env res x s)

include h

theorem settled (hres : res.IsPlain env) : x.res.prepared env = x.res := by
  have := hres.settled.progress x.res
  rw [← h.same] at this
  exact this

theorem conn (hres : res.IsPlain env) : x.res.conn = true := by
  rw [h.same]
  exact hres.conn

theorem hijacked (hres : res.IsPlain env) : x.res.hijacked = false := by
  rw [h.same]
  exact hres.hijacked

theorem encode : Plain env res (x.eoncodeHead env) (s.encode env res) := by
  cases hs : s.head with
  | some hd =>
    have henc : x.eoncodeHead env = x := by
      rw [Exchange.eoncodeHead]
      rw [h.head, hs]
      rfl
    rw [henc, Sheet.encode_of_some env res (by rw [hs]; exact Option.some_ne_none _)]
    exact h
  | none =>
    have hnot : x.res.headEncoded = false := by rw [h.head, hs]; rfl
    obtain ⟨hsent, hres⟩ := Exchange.eoncodeHead_spec env hnot
    obtain ⟨hout, hbody, hcount⟩ := h.unsent hs
    have hblock : x.res.headBlock env = res.headOf env s.hasBody s.body := by
      have hb := Response.headBlock_progress env res x.res
      rw [← h.same, h.hasBody, hbody] at hb
      exact hb
    have hflat : x.sent.flatten = [] := (append_eq_nil_iff.1 hout).1
    have hwhole : (x.eoncodeHead env).whole = res.headOf env s.hasBody s.body ++ s.body := by
      rw [Exchange.whole_eq, hsent, hres, hflat, hblock, hbody]
      rfl
    constructor
    · rw [hres, h.same]
      rfl
    · rw [hres]
      exact h.memo
    · rw [hres]
      rfl
    · rw [hres]
      exact h.hasBody
    · intro cl hcl _
      rw [hres]
      exact h.alone cl hcl (.inl hs)
    · rw [hres]
      exact h.bounded
    · rw [hres]
      exact h.counted
    · intro hnone
      cases hnone
    · rintro hd ⟨⟩
      rw [hwhole, hres, hcount, hs, length_append]
      exact Int.le_refl _
    · intro _
      rw [hwhole, hres, Sheet.encode, hs]
      exact ⟨rfl, hcount⟩

theorem mark {n : Int} (hn : 0 < n → res.declared = .ok n) :
    Plain env res { x with res := { x.res with hasBody := true, contentLen := n } }
      { s with hasBody := true } where
  same := by
    dsimp only
    rw [h.same]
    rfl
  memo := hn
  head := h.head
  hasBody := rfl
  alone := h.alone
  bounded := h.bounded
  counted := h.counted
  unsent := h.unsent
  le := h.le
  whole := h.whole

theorem takes {y : Exchange} {cl : Int} (ht : Exchange.Takes env x y data) (hcl : res.Declares cl)
    (hhead : s.head ≠ none) (hfits : x.res.bodyWritten + data.length ≤ cl) :
    Plain env res y { s with body := s.body ++ data } where
  same := by
    rw [ht.res, h.same]
    rfl
  memo := by
    rw [ht.res]
    exact h.memo
  head := by
    rw [ht.res]
    exact h.head
  hasBody := by
    rw [ht.res]
    exact h.hasBody
  alone := by
    rintro cl' - (hnone | hbuf)
    · exact absurd hnone hhead
    · rw [ht.res] at hbuf
      exact absurd rfl hbuf
  bounded := by
    rintro cl' ⟨hcl', -⟩
    obtain rfl : cl = cl' := by
      have := hcl.1.symm.trans hcl'
      exact Except.ok.inj this
    rcases ht.counted with hw | hw <;> omega
  counted hno := absurd ⟨cl, hcl⟩ hno
  unsent hnone := absurd hnone hhead
  le hd hhd := by
    have := ht.le
    have := h.le hd hhd
    omega
  whole hok := by
    obtain ⟨hw, hc⟩ := ht.whole hok
    obtain ⟨hw', hc'⟩ := h.whole hok
    refine ⟨by rw [hw, hw', append_assoc], ?_⟩
    rw [hc, hc', length_append]
    push_cast
    rfl

theorem caches {cl : Int} (hcl : res.declared = .ok cl) (hpos : ¬ 0 < cl) :
    Plain env res (x.appendBody env cl data).2 { s with body := s.body ++ data } := by
  obtain ⟨b, hb, -, hsent, hres⟩ := Exchange.appendBody_caches hpos env x data
  have hno : ¬ ∃ cl, res.Declares cl := by
    rintro ⟨cl', hcl', hpos'⟩
    obtain rfl : cl = cl' := Except.ok.inj (hcl.symm.trans hcl')
    exact hpos hpos'
  have hout : (x.appendBody env cl data).2.out = x.out := by rw [Exchange.out, hsent, hres]; rfl
  have hwhole : (x.appendBody env cl data).2.whole = x.whole ++ data := by
    rw [Exchange.whole, hout, hres, bufData_some, hb, Exchange.whole, append_assoc]
  constructor
  · rw [hres, h.same]
    rfl
  · rw [hres]
    exact h.memo
  · rw [hres]
    exact h.head
  · rw [hres]
    exact h.hasBody
  · exact fun cl' hcl' => absurd ⟨cl', hcl'⟩ hno
  · exact fun cl' hcl' => absurd ⟨cl', hcl'⟩ hno
  · intro _
    rw [hres, length_append]
    push_cast
    rw [← h.counted hno]
  · intro hnone
    obtain ⟨hnil, hbody, hcount⟩ := h.unsent hnone
    refine ⟨hout.trans hnil, by rw [hres, bufData_some, hb, hbody], ?_⟩
    rw [hres, length_append]
    push_cast
    rw [← hcount]
  · intro hd hhd
    have := h.le hd hhd
    rw [hwhole, hres, length_append]
    push_cast
    omega
  · intro hok
    obtain ⟨hw, hc⟩ := h.whole hok
    refine ⟨by rw [hwhole, hw, append_assoc], ?_⟩
    rw [hres, length_append]
    push_cast
    rw [← hc]

theorem write_eq (hres : res.IsPlain env) (hne : data ≠ []) :
    ∃ n, (0 < n → res.declared = .ok n) ∧
      let y := { x with res := { x.res with hasBody := true, contentLen := n } }
      (∀ e, res.declared = .error e → x.write env data = ((0, some e), y)) ∧
      (∀ cl, res.Declares cl → cl < x.res.bodyWritten + data.length →
        x.write env data = ((0, some .contentLength), y)) ∧
      (∀ cl, res.Declares cl → ¬ cl < x.res.bodyWritten + data.length →
        x.write env data = (y.eoncodeHead env).writeBody env cl data) ∧
      (∀ cl, res.declared = .ok cl → ¬ 0 < cl → x.write env data = y.appendBody env cl data) := by
  have hdecl : x.res.declared = res.declared := by
    rw [h.same]
    rfl
  have hknown : 0 < x.res.contentLen → x.res.declared = .ok x.res.contentLen := by
    rw [hdecl]
    exact h.memo
  obtain ⟨n, hlen, hmemo⟩ := Response.contentLength_declared hknown
  have hchunked : x.res.chunked = false := by
    rw [h.same]
    exact hres.chunked
  have hsettled := h.settled hres
  rw [hdecl] at hlen hmemo
  rw [← hsettled] at hlen hchunked
  have hcases := Exchange.write_cases hne (h.conn hres) hchunked hlen
  rw [hsettled] at hcases
  obtain ⟨herr, hrefuse, haccept, hcache⟩ := hcases
  exact ⟨n, hmemo, herr, fun cl hcl => hrefuse cl hcl.1 hcl.2,
    fun cl hcl => haccept cl hcl.1 hcl.2, hcache⟩

/-- Once a write to the connection has failed, the sheet is not told apart by its body. -/
theorem set_body {cl : Int} (hcl : res.Declares cl) (hhead : s.head ≠ none)
    (hfail : ¬ ∀ n, env.connErr n = none) (body : Bytes) :
    Plain env res x { s with body := body } where
  same := h.same
  memo := h.memo
  head := h.head
  hasBody := h.hasBody
  alone := h.alone
  bounded := h.bounded
  counted hno := absurd ⟨cl, hcl⟩ hno
  unsent hnone := absurd hnone hhead
  le := h.le
  whole hok := absurd hok hfail

theorem written_eq (hnone : s.head = none ∨ ∀ n, env.connErr n = none) :
    x.res.bodyWritten = s.body.length := by
  rcases hnone with hnone | hok
  · exact (h.unsent hnone).2.2
  · exact (h.whole hok).2

theorem accepts {cl : Int} (hcl : res.Declares cl) (hfits : ¬ cl < x.res.bodyWritten + data.length)
    :
    Plain env res ((x.eoncodeHead env).writeBody env cl data).2
      { s.encode env res with body := s.body ++ data } := by
  have henc := h.encode
  have hwritten := Exchange.eoncodeHead_written env x
  refine henc.takes (Exchange.writeBody_takes fun hbuf => ?_) hcl nofun (by omega)
  exact henc.alone cl hcl (.inr hbuf)

theorem write (hres : res.IsPlain env) (hne : data ≠ []) :
    Plain env res (x.write env data).2 (s.write env res data) := by
  obtain ⟨n, hn, herr, hrefuse, haccept, hcache⟩ := h.write_eq hres hne
  have hmark := h.mark hn
  cases hcl : res.declared with
  | error e =>
    rw [herr e hcl, Sheet.write, hcl]
    exact hmark
  | ok cl =>
    by_cases hpos : 0 < cl
    · have hdecl : res.Declares cl := ⟨hcl, hpos⟩
      rw [Sheet.write, hcl]
      simp only [if_pos hpos]
      by_cases hsame : s.head = none ∨ ∀ n, env.connErr n = none
      · rw [← h.written_eq hsame]
        by_cases hlong : cl < x.res.bodyWritten + data.length
        · rw [hrefuse cl hdecl hlong, if_pos hlong]
          exact hmark
        · rw [haccept cl hdecl hlong, if_neg hlong]
          exact hmark.accepts hdecl hlong
      · obtain ⟨hhead, hfail⟩ := not_or.1 hsame
        have henc : { s with hasBody := true }.encode env res = { s with hasBody := true } :=
          Sheet.encode_of_some env res hhead
        have hbody : ∀ body, Plain env res (x.write env data).2
            { s with hasBody := true, body := body } := by
          intro body
          by_cases hlong : cl < x.res.bodyWritten + data.length
          · rw [hrefuse cl hdecl hlong]
            exact hmark.set_body hdecl hhead hfail body
          · rw [haccept cl hdecl hlong]
            have := (hmark.accepts hdecl hlong).set_body hdecl nofun hfail body
            rw [henc] at this
            exact this
        split
        · exact hbody s.body
        · rw [henc]
          exact hbody (s.body ++ data)
    · rw [hcache cl hcl hpos, Sheet.write, hcl]
      simp only [if_neg hpos]
      exact hmark.caches hcl hpos

end Plain

/-! ## Flushing -/

namespace Exchange

variable {env : Env} {x y z : Exchange} {b : Buf} {data more : Bytes}

/-- How `y` follows `x` by sending `data`: all of it or less goes out, and all of it if no write
to the connection fails. -/
structure Sends (env : Env) (x y : Exchange) (data : Bytes) : Prop where
  le : y.sent.flatten.length ≤ x.sent.flatten.length + data.length
  all : (∀ n, env.connErr n = none) → y.sent.flatten = x.sent.flatten ++ data

theorem Sends.trans (h : Sends env x y data) (h' : Sends env y z more) :
    Sends env x z (data ++ more) where
  le := by
    have := h.le
    have := h'.le
    rw [length_append]
    omega
  all hok := by rw [h'.all hok, h.all hok, append_assoc]

theorem sends_nil (h : y.sent = x.sent) : Sends env x y [] where
  le := by rw [h]; exact Nat.le_refl _
  all _ := by rw [h, append_nil]

theorem Sends.failed (h : Sends env x y data) {e : Nat} (he : env.connErr e ≠ none)
    (more : Bytes) : Sends env x y (data ++ more) where
  le := by
    have := h.le
    rw [length_append]
    omega
  all hok := absurd (hok e) he

theorem send_sends (env : Env) (x : Exchange) (b : Buf) :
    (x.send env b).2.res = x.res ∧ Sends env x (x.send env b).2 b.data ∧
      ((x.send env b).1.2 ≠ none → ∃ i, env.connErr i ≠ none) := by
  obtain ⟨hres, ⟨hr, hs⟩ | ⟨n, e, hr, hs, i, hi⟩⟩ := send_outcome env x b
  · refine ⟨hres, ⟨?_, fun _ => ?_⟩, fun hne => absurd (by rw [hr]) hne⟩
    · simp [hs]
    · simp [hs]
  · refine ⟨hres, ⟨?_, fun hok => absurd (hok i) hi⟩, fun _ => ⟨i, hi⟩⟩
    rw [hs]
    exact Nat.le_add_right _ _

theorem flushBuf_sends (env : Env) (x : Exchange) (b : Option Buf) :
    (x.flushBuf env b).2.res = x.res ∧ Sends env x (x.flushBuf env b).2 (bufData b) ∧
      bufData (x.flushBuf env b).1 = [] := by
  cases b with
  | none => exact ⟨rfl, sends_nil rfl, rfl⟩
  | some b =>
    obtain ⟨hres, hsend, -⟩ := send_sends env x b
    unfold flushBuf
    by_cases hlen : 0 < b.data.length
    · simp only [if_pos hlen]
      cases (x.send env b).1.2 with
      | some e => exact ⟨hres, ⟨hsend.le, hsend.all⟩, rfl⟩
      | none => exact ⟨hres, ⟨hsend.le, hsend.all⟩, rfl⟩
    · have hb : b.data = [] := length_eq_zero_iff.1 (by omega)
      simp only [if_neg hlen]
      refine ⟨trivial, ?_, hb⟩
      rw [bufData_some, hb]
      exact sends_nil rfl

theorem flushBufs_sends (env : Env) (x : Exchange) :
    Sends env x (x.flushBufs env) (bufData x.res.buffer ++ bufData x.res.bodyBuffer) ∧
      (x.flushBufs env).res = { x.res with
        buffer := (x.flushBufs env).res.buffer, bodyBuffer := (x.flushBufs env).res.bodyBuffer } ∧
      bufData (x.flushBufs env).res.buffer = [] ∧
      bufData (x.flushBufs env).res.bodyBuffer = [] := by
  obtain ⟨hres, hsend, hnil⟩ := flushBuf_sends env x x.res.buffer
  unfold flushBufs
  generalize x.flushBuf env x.res.buffer = r at hres hsend hnil
  obtain ⟨b, y⟩ := r
  dsimp only at hres hsend hnil ⊢
  have hset : (y.setBuffer b).res = { x.res with buffer := b } := by
    rw [← hres]
    rfl
  obtain ⟨hres', hsend', hnil'⟩ :=
    flushBuf_sends env (y.setBuffer b) (y.setBuffer b).res.bodyBuffer
  generalize (y.setBuffer b).flushBuf env (y.setBuffer b).res.bodyBuffer =
    r' at hres' hsend' hnil' ⊢
  obtain ⟨b', z⟩ := r'
  dsimp only at hres' hsend' hnil' ⊢
  rw [hset] at hres' hsend'
  have hall : Sends env x z (bufData x.res.buffer ++ bufData x.res.bodyBuffer) :=
    hsend.trans ⟨hsend'.le, hsend'.all⟩
  refine ⟨⟨hall.le, hall.all⟩, ?_, ?_, hnil'⟩
  · simp only [setBodyBuffer, hres']
  · simpa only [setBodyBuffer, hres'] using hnil

theorem flushBody_sends (env : Env) (x : Exchange) :
    Sends env x (x.flushBody env).2 (bufData x.res.bodyBuffer) := by
  unfold flushBody
  cases x.res.bodyBuffer with
  | none => exact sends_nil rfl
  | some body =>
    dsimp only
    split
    · obtain ⟨-, hsend, -⟩ := send_sends env x body
      exact ⟨hsend.le, hsend.all⟩
    · next hlen =>
      have hb : body.data = [] := length_eq_zero_iff.1 (by omega)
      rw [bufData_some, hb]
      exact sends_nil rfl

theorem flushHead_sends (env : Env) (x : Exchange) (b : Buf) :
    Sends env x (x.flushHead env b).2 (b.data ++ bufData x.res.bodyBuffer) := by
  obtain ⟨hres, hsend, hfail⟩ := send_sends env x b
  unfold flushHead
  generalize x.send env b = r at hres hsend hfail
  obtain ⟨⟨n, e⟩, y⟩ := r
  have hsend' : Sends env x ((y.free b).setBuffer none) b.data := ⟨hsend.le, hsend.all⟩
  cases e with
  | some e =>
    obtain ⟨i, hi⟩ := hfail nofun
    exact hsend'.failed hi _
  | none =>
    have hbody := flushBody_sends env ((y.free b).setBuffer none)
    have heq : ((y.free b).setBuffer none).res.bodyBuffer = x.res.bodyBuffer := by
      rw [← hres]
      rfl
    rw [heq] at hbody
    exact hsend'.trans hbody

theorem flushPlain_sends (env : Env) (x : Exchange) :
    Sends env x (x.flushPlain env).2 (bufData x.res.buffer ++ bufData x.res.bodyBuffer) := by
  unfold flushPlain
  cases hb : x.res.buffer with
  | none => exact flushBody_sends env x
  | some b =>
    have hhead := flushHead_sends env x b
    cases hbody : x.res.bodyBuffer with
    | none =>
      rw [hbody] at hhead
      exact hhead
    | some body =>
      rw [hbody] at hhead
      dsimp only
      split
      · split
        · obtain ⟨hres, hsend, hfail⟩ := send_sends env x b
          generalize x.send env b = r at hres hsend hfail
          obtain ⟨⟨n, e⟩, y⟩ := r
          have hsend' : Sends env x (((y.free b).setBuffer none).setBodyBuffer none) b.data :=
            ⟨hsend.le, hsend.all⟩
          cases e with
          | some e =>
            obtain ⟨i, hi⟩ := hfail nofun
            have := hsend'.failed hi (bufData (some body))
            exact ⟨this.le, this.all⟩
          | none =>
            have hlast := flushHead_sends env (((y.free b).setBuffer none).setBodyBuffer none) body
            have := hsend'.trans hlast
            simpa [setBodyBuffer] using this
        · have hlast := flushHead_sends env
            (((x.append b body.data).2.free body).setBodyBuffer none) (x.append b body.data).1
          have := (sends_nil (x := x)
            (y := ((x.append b body.data).2.free body).setBodyBuffer none) rfl).trans hlast
          simpa [setBodyBuffer, append] using this
      · exact hhead

end Exchange

namespace Plain

variable {env : Env} {res : Response} {x : Exchange} {s : Sheet}

variable (h : Plain env res x s) (hres : res.IsPlain env)

include h hres

theorem Flush :
    Plain env res (x.Flush env) (s.encode env res) := by
  have hno : ¬ (x.res.hijacked = true ∨ x.res.conn = false) := by
    simp [h.hijacked hres, h.conn hres]
  have hsettled : (x.res.writeHeader env 200).checkChunked = x.res := h.settled hres
  rw [Exchange.Flush, if_neg hno]
  simp only [hsettled]
  have henc := h.encode
  generalize x.eoncodeHead env = e at henc
  obtain ⟨hsend, hres', hbuf, hbody⟩ := Exchange.flushBufs_sends env e
  have hwhole : (e.flushBufs env).whole = (e.flushBufs env).sent.flatten := by
    rw [Exchange.whole_eq, hbuf, hbody, append_nil, append_nil]
  constructor
  · rw [hres', henc.same]
    rfl
  · rw [hres']
    exact henc.memo
  · rw [hres']
    exact henc.head
  · rw [hres']
    exact henc.hasBody
  · exact fun _ _ _ => hbody
  · rw [hres']
    exact henc.bounded
  · rw [hres']
    exact henc.counted
  · intro hnone
    cases hnone
  · intro hd hhd
    have hle := henc.le hd hhd
    have hsent := hsend.le
    rw [Exchange.whole_eq, append_assoc, length_append] at hle
    rw [hwhole, hres']
    dsimp only
    omega
  · intro hok
    obtain ⟨hw, hc⟩ := henc.whole hok
    rw [Exchange.whole_eq, append_assoc, ← hsend.all hok] at hw
    rw [hwhole, hres']
    exact ⟨hw, hc⟩

theorem call (op : Op) :
    Plain env res (x.call env op) (s.call env res op) := by
  cases op with
  | flush => exact h.Flush hres
  | write data =>
    cases data with
    | nil =>
      exact h
    | cons c cs => exact h.write hres nofun

theorem run (ops : List Op) :
    Plain env res (ops.foldl (·.call env) x) (ops.foldl (·.call env res) s) := by
  induction ops generalizing x s with
  | nil => exact h
  | cons op ops ih => exact ih (h.call hres op)

theorem flushResponse :
    Exchange.Sends env (x.eoncodeHead env) (x.flushResponse env).2
      (bufData (x.eoncodeHead env).res.buffer ++ bufData (x.eoncodeHead env).res.bodyBuffer) := by
  have hno : ¬ (x.res.conn = false ∨ x.res.hijacked = true) := by
    simp [h.hijacked hres, h.conn hres]
  have hsettled : (x.res.writeHeader env 200).checkChunked = x.res := h.settled hres
  have hchunked : (x.eoncodeHead env).res.chunked = false := by
    rw [h.encode.same]
    exact hres.chunked
  rw [Exchange.flushResponse, if_neg hno]
  simp only [hsettled]
  rw [Exchange.flush, if_neg (by simp [hchunked])]
  exact Exchange.flushPlain_sends env _

theorem respond (hok : ∀ n, env.connErr n = none) (ops : List Op) :
    x.respond env ops = (ops.foldl (·.call env res) s).wire env res := by
  have hrun := h.run hres ops
  rw [Exchange.respond, (hrun.flushResponse hres).all hok, ← append_assoc,
    ← Exchange.whole_eq, (hrun.encode.whole hok).1]
  rfl

theorem respond_le (ops : List Op) {hd : Bytes}
    (hhd : ((ops.foldl (·.call env res) s).encode env res).head = some hd) :
    (x.respond env ops).length ≤
      hd.length + (ops.foldl (·.call env) x).res.bodyWritten := by
  have hrun := h.run hres ops
  have hle := hrun.encode.le hd hhd
  have hsend := (hrun.flushResponse hres).le
  rw [Exchange.eoncodeHead_written, Exchange.whole_eq, append_assoc, length_append] at hle
  rw [Exchange.respond]
  omega

end Plain

/-! ## Whole responses -/

namespace Exchange

variable {env : Env} {x : Exchange} {data : Bytes}

def prepare (env : Env) (x : Exchange) : Exchange := { x with res := x.res.prepared env }

theorem prepare_conn (env : Env) (x : Exchange) : (x.prepare env).res.conn = x.res.conn := by
  obtain ⟨st, code, hd, c, hp⟩ := x.res.prepared_eq env
  rw [prepare, hp]

theorem prepare_hijacked (env : Env) (x : Exchange) :
    (x.prepare env).res.hijacked = x.res.hijacked := by
  obtain ⟨st, code, hd, c, hp⟩ := x.res.prepared_eq env
  rw [prepare, hp]

theorem prepare_again (env : Env) (x : Exchange) :
    ((x.prepare env).res.writeHeader env 200).checkChunked = x.res.prepared env :=
  x.res.prepared_settled env

theorem write_prepare (hne : data ≠ []) (hconn : x.res.conn = true) :
    x.write env data = (x.prepare env).write env data := by
  rw [write, write, if_neg (show ¬ (data = [] ∨ x.res.conn = false) by simp [hconn, hne]),
    if_neg (show ¬ (data = [] ∨ (x.prepare env).res.conn = false) by
      simp [prepare_conn, hconn, hne])]
  simp only [prepare_again]
  rfl

theorem Flush_prepare (hconn : x.res.conn = true) (hhij : x.res.hijacked = false) :
    x.Flush env = (x.prepare env).Flush env := by
  rw [Flush, Flush, if_neg (by simp [hconn, hhij]),
    if_neg (by simp [prepare_conn, prepare_hijacked, hconn, hhij])]
  simp only [prepare_again]
  rfl

theorem call_prepare_of_ne (hconn : x.res.conn = true) (hhij : x.res.hijacked = false) {op : Op}
    (hop : op ≠ .write []) : x.call env op = (x.prepare env).call env op := by
  cases op with
  | flush => exact Flush_prepare hconn hhij
  | write data =>
    have hne : data ≠ [] := fun hnil => hop (by rw [hnil])
    exact congrArg Prod.snd (write_prepare hne hconn)

theorem call_prepare (env : Env) (hconn : x.res.conn = true) (hhij : x.res.hijacked = false)
    (op : Op) : x.call env op = (x.prepare env).call env op ∨
      x.call env op = x ∧ (x.prepare env).call env op = x.prepare env := by
  by_cases hop : op = .write []
  · rw [hop]
    exact .inr ⟨rfl, rfl⟩
  · exact .inl (call_prepare_of_ne hconn hhij hop)

theorem foldl_prepare (env : Env) (hconn : x.res.conn = true) (hhij : x.res.hijacked = false)
    (ops : List Op) :
    ops.foldl (·.call env) x = ops.foldl (·.call env) (x.prepare env) ∨
      ops.foldl (·.call env) x = x ∧
        ops.foldl (·.call env) (x.prepare env) = x.prepare env := by
  induction ops with
  | nil => exact .inr ⟨rfl, rfl⟩
  | cons op ops ih =>
    rw [foldl_cons, foldl_cons]
    rcases call_prepare env hconn hhij op with h | ⟨h, h'⟩
    · exact .inl (by rw [h])
    · rw [h, h']
      exact ih

theorem write_foldl_prepare (env : Env) (hconn : x.res.conn = true) (hhij : x.res.hijacked = false)
    (ops : List Op) (data : Bytes) :
    let y := ops.foldl (·.call env) x
    let z := ops.foldl (·.call env) (x.prepare env)
    (y.write env data).1 = (z.write env data).1 ∧
      (y.write env data).2.sent = (z.write env data).2.sent ∧
      (y.write env data).2.whole = (z.write env data).2.whole ∧
      y.sent = z.sent ∧ y.whole = z.whole := by
  rcases foldl_prepare env hconn hhij ops with h | ⟨h, h'⟩
  · rw [h]
    exact ⟨rfl, rfl, rfl, rfl, rfl⟩
  · dsimp only
    have hwhole : x.whole = (x.prepare env).whole := by
      obtain ⟨st, code, hd, c, hp⟩ := x.res.prepared_eq env
      rw [whole_eq, whole_eq, prepare, hp]
    rw [h, h']
    by_cases hne : data = []
    · rw [hne]
      exact ⟨rfl, rfl, hwhole, rfl, hwhole⟩
    · rw [write_prepare hne hconn]
      exact ⟨rfl, rfl, rfl, rfl, hwhole⟩

theorem respond_prepare (hconn : x.res.conn = true) (hhij : x.res.hijacked = false)
    (ops : List Op) : x.respond env ops = (x.prepare env).respond env ops := by
  rw [respond, respond]
  rcases foldl_prepare env hconn hhij ops with h | ⟨h, h'⟩
  · rw [h]
  · rw [h, h', flushResponse, flushResponse, if_neg (by simp [hconn, hhij]),
      if_neg (by simp [prepare_conn, prepare_hijacked, hconn, hhij])]
    simp only [prepare_again]
    rfl

end Exchange

namespace Response

/-- A response of which the handler may have set the status and the header, and nothing else. -/
structure Unused (res : Response) : Prop where
  conn : res.conn = true
  hijacked : res.hijacked = false
  headEncoded : res.headEncoded = false
  buffer : res.buffer = none
  bodyBuffer : res.bodyBuffer = none
  contentLen : res.contentLen = 0
  bodyWritten : res.bodyWritten = 0
  chunked : res.chunked = false
  chunkChecked : res.chunkChecked = false
  hasBody : res.hasBody = false

variable {env : Env} {res : Response}

theorem Unused.isPlain (h : res.Unused) (hchunked : (res.prepared env).chunked = false) :
    (res.prepared env).IsPlain env := by
  obtain ⟨st, code, hd, c, hp⟩ := res.prepared_eq env
  refine ⟨?_, ?_, hchunked, res.prepared_settled env⟩
  · rw [hp]
    exact h.conn
  · rw [hp]
    exact h.hijacked

theorem Unused.plain (h : res.Unused) (env : Env) :
    Plain env (res.prepared env) (res.exchange.prepare env) Sheet.blank := by
  obtain ⟨st, code, hd, c, hp⟩ := res.prepared_eq env
  have hres : (res.exchange.prepare env).res = _ := hp
  have hwritten : (res.exchange.prepare env).res.bodyWritten = 0 := by
    rw [hres]
    exact h.bodyWritten
  have hbody : bufData (res.exchange.prepare env).res.bodyBuffer = [] := by
    rw [hres, h.bodyBuffer]
    rfl
  have hout : (res.exchange.prepare env).out = [] := by
    rw [Exchange.out, hres, h.buffer]
    rfl
  constructor
  · rfl
  · rw [hres, h.contentLen]
    intro hneg
    cases hneg
  · rw [hres]
    exact h.headEncoded
  · rw [hres]
    exact h.hasBody
  · exact fun _ _ _ => hbody
  · rintro cl ⟨-, hpos⟩
    omega
  · exact fun _ => hwritten
  · exact fun _ => ⟨hout, hbody, hwritten⟩
  · intro hd hsome
    cases hsome
  · refine fun _ => ⟨?_, hwritten⟩
    rw [Exchange.whole, hout, hbody]
    rfl

theorem Unused.head_eq (h : res.Unused) (env : Env) (ops : List Op) :
    res.head env ops = (res.prepared env).headOf env (firstWrites ops) [] := by
  have hbody : (res.prepared env).bodyBuffer = none := by
    obtain ⟨st, code, hd, c, hp⟩ := res.prepared_eq env
    rw [hp]
    exact h.bodyBuffer
  have hblock := headBlock_progress env (res.prepared env)
    { res.prepared env with hasBody := firstWrites ops }
  rw [hbody] at hblock
  rw [head, h.hasBody]
  exact hblock

def sheet (env : Env) (res : Response) (ops : List Op) : Sheet :=
  ops.foldl (·.call env (res.prepared env)) Sheet.blank

def plainHead (env : Env) (res : Response) (ops : List Op) : Bytes :=
  (res.sheet env ops).head.getD
    ((res.prepared env).headOf env (res.sheet env ops).hasBody (res.sheet env ops).body)

theorem Unused.respond (h : res.Unused) (env : Env) (hchunked : (res.prepared env).chunked = false)
    (hok : ∀ n, env.connErr n = none) (ops : List Op) :
    res.exchange.respond env ops = res.plainHead env ops ++ (res.sheet env ops).body := by
  rw [Exchange.respond_prepare h.conn h.hijacked]
  exact (h.plain env).respond (h.isPlain hchunked) hok ops

theorem Unused.respond_le (h : res.Unused) (env : Env)
    (hchunked : (res.prepared env).chunked = false)
    (ops : List Op) :
    (res.exchange.respond env ops).length ≤ (res.plainHead env ops).length +
      (ops.foldl (·.call env) (res.exchange.prepare env)).res.bodyWritten := by
  rw [Exchange.respond_prepare h.conn h.hijacked]
  exact (h.plain env).respond_le (h.isPlain hchunked) ops rfl

end Response

end Nbio.Http
