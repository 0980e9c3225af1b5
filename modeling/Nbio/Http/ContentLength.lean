import Nbio.Http.Head
import Nbio.Http.Plain

/-!
# Lengths of responses

What `Write` answers and what becomes of lengths: the count that it returns, the data that it
refuses for a declared `Content-Length`, and the number of bytes behind a head that announces one.
-/

namespace Nbio.Http

open Nbio.Go List Option

/-! ## The count -/

namespace Exchange

variable {env : Env} {x : Exchange} {b : Buf} {cl : Int} {data : Bytes}

/-- An answer of `Write`: without an error it is the count `n`, and an error is one of the
connection. -/
structure Answers (env : Env) (r : Int × Option ResponseErr) (n : Int) : Prop where
  count : r.2 = none → r.1 = n
  ok : (∀ i, env.connErr i = none) → r.2 = none
  other : r.2 ≠ some .contentLength

theorem Answers.of_eq (n : Int) : Answers env (n, none) n := ⟨fun _ => rfl, fun _ => rfl, nofun⟩

theorem Answers.error {r : Int × Option ResponseErr} {n m k : Int} {e : ResponseErr}
    (h : Answers env r n) (he : r.2 = some e) : Answers env (k, some e) m where
  count := nofun
  ok hok := by rw [h.ok hok] at he; cases he
  other hno := h.other (he.trans hno)

theorem connWrite_answers (env : Env) (x : Exchange) (data : Bytes) :
    Answers env (x.connWrite env data).1 data.length := by
  unfold connWrite
  cases h : env.connErr x.connWrites with
  | none => exact .of_eq _
  | some e => exact ⟨nofun, fun hok => absurd (h.symm.trans (hok _)) nofun, nofun⟩

theorem send_answers (env : Env) (x : Exchange) (b : Buf) :
    Answers env (x.send env b).1 b.data.length :=
  connWrite_answers env _ b.data

theorem sendChunk_answers (env : Env) (x : Exchange) (b : Buf) (data : Bytes) :
    Answers env (x.sendChunk env b data).1 data.length := by
  unfold sendChunk
  dsimp only
  split
  · exact .of_eq _
  · have hsend := send_answers env (x.appends b [data, crlf]).2 (x.appends b [data, crlf]).1
    split
    · next e he => exact hsend.error he
    · exact .of_eq _

theorem putChunk_answers (env : Env) (x : Exchange) (pbuf : Option Buf) (data : Bytes) :
    Answers env (x.putChunk env pbuf data).1 data.length := by
  unfold putChunk
  cases pbuf with
  | none =>
    dsimp only
    split
    · exact .of_eq _
    · exact sendChunk_answers env _ _ data
  | some b =>
    dsimp only
    split
    · exact .of_eq _
    · have hsend := send_answers env (x.appends b [Response.formatInt data.length 16, crlf]).2
        (x.appends b [Response.formatInt data.length 16, crlf]).1
      split
      · next e he => exact hsend.error he
      · exact sendChunk_answers env _ _ data

theorem cacheBody_answers (env : Env) (x : Exchange) (cl : Int) (b : Buf) (data : Bytes) :
    Answers env (x.cacheBody env cl b data).1
      (if 0 < cl ∧ maxPacketSize ≤ b.data.length + data.length then
        ↑(b.data.length + data.length) else data.length) := by
  have hlen : (((x.addWritten data.length).append b data).1.data).length =
      b.data.length + data.length := length_append
  unfold cacheBody
  dsimp only
  rw [hlen]
  split
  · have hsend := send_answers env ((x.addWritten data.length).append b data).2
      ((x.addWritten data.length).append b data).1
    rw [hlen] at hsend
    split
    · next e he => exact hsend.error he
    · exact hsend
  · exact .of_eq _

/-- Whether the body buffer and the data together are one packet, and the buffer has a part in
it. -/
def fillsPacket (body : Option Buf) (data : Bytes) : Prop :=
  ∃ b, body = some b ∧ 0 < b.data.length ∧ b.data.length + data.length = maxPacketSize

theorem cacheBody_answers_empty (hb : b.data = []) (hlen : ¬ (0 < cl ∧ maxPacketSize ≤ data.length))
    (env : Env) (x : Exchange) : Answers env (x.cacheBody env cl b data).1 data.length := by
  have h := cacheBody_answers env x cl b data
  rw [hb, length_nil, Nat.zero_add, if_neg hlen] at h
  exact h

theorem appendBody_answers (h : ¬ (0 < cl ∧ fillsPacket x.res.bodyBuffer data)) :
    Answers env (x.appendBody env cl data).1 data.length := by
  unfold appendBody
  cases hbody : x.res.bodyBuffer with
  | none =>
    dsimp only
    split
    · exact connWrite_answers env _ data
    · next hdirect => exact cacheBody_answers_empty rfl hdirect env _
  | some b =>
    rw [hbody] at h
    dsimp only
    split
    · next hlong =>
      -- what is cached goes out first
      by_cases hlen : 0 < b.data.length
      · simp only [if_pos hlen]
        have hsend := send_answers env x b
        split
        · next e _ _ he =>
          simp only [Prod.mk.injEq] at he
          exact hsend.error he.1
        · next he =>
          simp only [Prod.mk.injEq] at he
          obtain ⟨-, rfl, rfl⟩ := he
          split
          · exact connWrite_answers env _ data
          · next hdirect =>
            exact cacheBody_answers_empty rfl (fun hno => hdirect hno.2) env _
      · simp only [if_neg hlen]
        split
        · exact connWrite_answers env _ data
        · next hdirect =>
          exact cacheBody_answers_empty (length_eq_zero_iff.1 (by omega))
            (fun hno => hdirect hno.2) env _
    · next hshort =>
      have hcache := cacheBody_answers env x cl b data
      by_cases hfull : 0 < cl ∧ maxPacketSize ≤ b.data.length + data.length
      · have heq : b.data.length + data.length = maxPacketSize := by omega
        have hzero : ¬ 0 < b.data.length := fun hpos => h ⟨hfull.1, b, rfl, hpos, heq⟩
        rw [if_pos hfull, show b.data.length + data.length = data.length by omega] at hcache
        exact hcache
      · rw [if_neg hfull] at hcache
        exact hcache

theorem appendBody_answers_packet (hpos : 0 < cl) (h : fillsPacket x.res.bodyBuffer data) :
    Answers env (x.appendBody env cl data).1 maxPacketSize := by
  obtain ⟨b, hb, hlen, heq⟩ := h
  have hcache := cacheBody_answers env x cl b data
  rw [if_pos ⟨hpos, heq.ge⟩, heq] at hcache
  unfold appendBody
  rw [hb]
  simp only [heq, Nat.lt_irrefl, and_false]
  exact hcache

theorem writeBody_answers (h : ¬ (0 < cl ∧ fillsPacket x.res.bodyBuffer data ∧
      ∀ b, x.res.buffer = some b → maxPacketSize ≤ b.data.length + data.length)) :
    Answers env (x.writeBody env cl data).1 data.length := by
  unfold writeBody
  cases hbuf : x.res.buffer with
  | none =>
    rw [hbuf] at h
    exact appendBody_answers fun hno => h ⟨hno.1, hno.2, nofun⟩
  | some b =>
    dsimp only
    split
    · next hroom =>
      -- the head is in the place of the body buffer, and there is room for the data
      refine appendBody_answers ?_
      rintro ⟨-, b', hb', -, heq⟩
      cases hb'
      omega
    · next hroom =>
      have hsend := send_answers env (x.setBuffer none) b
      obtain ⟨hres, -⟩ := send_outcome env (x.setBuffer none) b
      split
      · next e he => exact hsend.error he
      · refine appendBody_answers ?_
        have hbody : (((x.setBuffer none).send env b).2.free b).res.bodyBuffer =
            x.res.bodyBuffer := by
          change ((x.setBuffer none).send env b).2.res.bodyBuffer = _
          rw [hres]
          rfl
        rw [hbody]
        rintro ⟨hpos, hfills⟩
        refine h ⟨hpos, hfills, fun b' hb' => ?_⟩
        cases hbuf.symm.trans hb'
        omega

theorem writeBody_answers_packet (hpos : 0 < cl) (h : fillsPacket x.res.bodyBuffer data)
    (hroom : ∀ b, x.res.buffer = some b → maxPacketSize ≤ b.data.length + data.length) :
    Answers env (x.writeBody env cl data).1 maxPacketSize := by
  unfold writeBody
  cases hbuf : x.res.buffer with
  | none => exact appendBody_answers_packet hpos h
  | some b =>
    dsimp only
    rw [if_neg (Nat.not_lt.2 (hroom b hbuf))]
    have hsend := send_answers env (x.setBuffer none) b
    obtain ⟨hres, -⟩ := send_outcome env (x.setBuffer none) b
    generalize (x.setBuffer none).send env b = r at hsend hres
    obtain ⟨⟨n, e⟩, y⟩ := r
    cases e with
    | some e => exact hsend.error rfl
    | none =>
      refine appendBody_answers_packet hpos ?_
      have hbody : (y.free b).res.bodyBuffer = x.res.bodyBuffer := by
        change y.res.bodyBuffer = _
        rw [show y.res = _ from hres]
        rfl
      rw [hbody]
      exact h

theorem writeBody_other (hpos : 0 < cl) (env : Env) (x : Exchange) (data : Bytes) :
    (x.writeBody env cl data).1.2 ≠ some .contentLength := by
  by_cases h : fillsPacket x.res.bodyBuffer data ∧
      ∀ b, x.res.buffer = some b → maxPacketSize ≤ b.data.length + data.length
  · exact (writeBody_answers_packet hpos h.1 h.2).other
  · exact (writeBody_answers fun hno => h hno.2).other

/-- Whether `Write` counts a whole packet instead of the data: a positive length is declared, and
the body bytes that are cached and the data together are exactly one packet. -/
def countsPacket (env : Env) (x : Exchange) (data : Bytes) : Prop :=
  data ≠ [] ∧ (x.res.prepared env).chunked = false ∧
    (∃ cl, (x.res.prepared env).contentLength.1 = .ok cl ∧ 0 < cl) ∧
    (∀ n, x.waiting env = some n → maxPacketSize ≤ n + data.length) ∧
    fillsPacket x.res.bodyBuffer data

theorem eoncodeHead_buffers (env : Env) (x : Exchange) (n : Int) :
    let y := { x with res := { x.res.prepared env with hasBody := true, contentLen := n } }
    (y.eoncodeHead env).res.bodyBuffer = x.res.bodyBuffer ∧
      (y.eoncodeHead env).res.buffer.map (fun b => b.data.length) = x.waiting env := by
  obtain ⟨st, code, hd, c, hp⟩ := x.res.prepared_eq env
  unfold waiting eoncodeHead
  rw [hp]
  dsimp only
  split
  · exact ⟨rfl, rfl⟩
  · exact ⟨rfl, rfl⟩

/-- `Write` answers with the length of the data, or with that of a packet, where it does not refuse
the data. -/
theorem write_answers (hne : data ≠ []) (hconn : x.res.conn = true)
    (hchunked : (x.res.prepared env).chunked = false)
    (hcl : (x.res.prepared env).contentLength.1 = .ok cl)
    (hfits : ¬ (0 < cl ∧ cl < (x.res.prepared env).bodyWritten + data.length)) :
    (x.countsPacket env data → Answers env (x.write env data).1 maxPacketSize) ∧
    (¬ x.countsPacket env data → Answers env (x.write env data).1 data.length) := by
  obtain ⟨r, n, hlen⟩ := Response.contentLength_eq (x.res.prepared env)
  rw [hlen] at hcl
  obtain rfl : r = .ok cl := hcl
  obtain ⟨-, -, haccept, hcache⟩ := write_cases hne hconn hchunked hlen
  by_cases hpos : 0 < cl
  · obtain ⟨hbody, hwait⟩ := eoncodeHead_buffers env x n
    rw [haccept cl rfl hpos fun hlong => hfits ⟨hpos, hlong⟩]
    refine ⟨fun h => ?_, fun h => ?_⟩
    · refine writeBody_answers_packet hpos (hbody ▸ h.2.2.2.2) fun b hb => ?_
      exact h.2.2.2.1 _ (by rw [← hwait, hb]; rfl)
    · refine writeBody_answers ?_
      rintro ⟨-, hfills, hroom⟩
      refine h ⟨hne, hchunked, ⟨cl, by rw [hlen], hpos⟩, fun m hm => ?_, hbody ▸ hfills⟩
      rw [← hwait, map_eq_some_iff] at hm
      obtain ⟨b, hb, rfl⟩ := hm
      exact hroom b hb
  · rw [hcache cl rfl hpos]
    refine ⟨fun h => ?_, fun _ => appendBody_answers fun h => hpos h.1⟩
    obtain ⟨cl', hcl', hpos'⟩ := h.2.2.1
    rw [hlen] at hcl'
    cases hcl'
    exact absurd hpos' hpos

theorem write_count (hconn : x.res.conn = true) (hnil : (x.write env data).1.2 = none) :
    (x.countsPacket env data → (x.write env data).1.1 = maxPacketSize) ∧
    (¬ x.countsPacket env data → (x.write env data).1.1 = data.length) := by
  by_cases hne : data = []
  · subst hne
    refine ⟨fun h => absurd rfl h.1, fun _ => ?_⟩
    rfl
  cases hchunked : (x.res.prepared env).chunked with
  | true =>
    refine ⟨fun h => absurd (h.2.1.symm.trans hchunked) Bool.false_ne_true, fun _ => ?_⟩
    rw [write_chunked hne hconn hchunked] at hnil ⊢
    exact (putChunk_answers env _ _ data).count hnil
  | false =>
    obtain ⟨r, n, hlen⟩ := Response.contentLength_eq (x.res.prepared env)
    obtain ⟨herr, hrefuse, -, -⟩ := write_cases hne hconn hchunked hlen
    cases r with
    | error e =>
      rw [herr e rfl] at hnil
      cases hnil
    | ok cl =>
      have hfits : ¬ (0 < cl ∧ cl < (x.res.prepared env).bodyWritten + data.length) := by
        rintro ⟨hpos, hlong⟩
        rw [hrefuse cl rfl hpos hlong] at hnil
        cases hnil
      obtain ⟨hpacket, hdata⟩ := write_answers hne hconn hchunked (by rw [hlen]) hfits
      exact ⟨fun h => (hpacket h).count hnil, fun h => (hdata h).count hnil⟩

end Exchange

/-- `Write` returns the length of its data where it returns no error, unless a positive length is
declared and the data makes exactly one packet with the body bytes that are cached. -/
theorem write_count_iff {env : Env} {x : Exchange} {data : Bytes} (hconn : x.res.conn = true)
    (hnil : (x.write env data).1.2 = none) :
    (x.write env data).1.1 = data.length ↔ ¬ x.countsPacket env data := by
  obtain ⟨hpacket, hcount⟩ := Exchange.write_count hconn hnil
  refine ⟨fun heq h => ?_, hcount⟩
  have hlen : data.length = maxPacketSize := by
    have := heq.symm.trans (hpacket h)
    omega
  obtain ⟨b, -, hpos, hsum⟩ := h.2.2.2.2
  omega

def sizedResponse : Response :=
  { plainResponse with header := [(contentLengthHeader, [ascii "65536"])] }

theorem sizedResponse_unused : sizedResponse.Unused := by
  constructor <;> rfl

theorem write_count_iff_head :
    (sizedResponse.exchange.write crEnv (ascii "ab")).1 = (2, none) ∧
      ¬ sizedResponse.exchange.countsPacket crEnv (ascii "ab") :=
  ⟨by decide +kernel, (write_count_iff rfl (by decide +kernel)).1 (by decide +kernel)⟩

def oneCached : Exchange :=
  [Op.flush, .write (ascii "a")].foldl (·.call crEnv) sizedResponse.exchange

/-- The rest of the 65536 bytes in one `Write`, which says that it has written them all. -/
theorem packet_count_returned :
    (oneCached.write crEnv (replicate 65535 97)).1 = (65536, none) ∧
      (replicate 65535 (97 : UInt8)).length = 65535 := by
  have hlen : (replicate 65535 (97 : UInt8)).length = 65535 := length_replicate
  have hstate : oneCached.res.conn = true ∧ (oneCached.res.prepared crEnv).chunked = false ∧
      (oneCached.res.prepared crEnv).contentLength.1 = .ok 65536 ∧
      (oneCached.res.prepared crEnv).bodyWritten = 1 ∧ oneCached.waiting crEnv = none ∧
      oneCached.res.bodyBuffer = some ⟨0, ascii "a"⟩ := by decide +kernel
  obtain ⟨hconn, hchunked, hcl, hwritten, hwait, hbody⟩ := hstate
  have hne : replicate 65535 (97 : UInt8) ≠ [] := by
    intro hnil
    rw [hnil] at hlen
    cases hlen
  have hpacket : oneCached.countsPacket crEnv (replicate 65535 97) :=
    ⟨hne, hchunked, ⟨_, hcl, by decide⟩, fun n hn => absurd (hwait.symm.trans hn) nofun, _, hbody,
      by decide, by rw [hlen]; rfl⟩
  have hanswer := (Exchange.write_answers hne hconn hchunked hcl (by
    omega)).1 hpacket
  have hnone := hanswer.ok fun _ => rfl
  exact ⟨Prod.ext (hanswer.count hnone) hnone, hlen⟩

/-! ## A declared length -/

namespace Response

variable {env : Env} {res : Response}

theorem writeHeader_header (env : Env) (res : Response) :
    (res.writeHeader env 200).header = res.header ∨
      (res.writeHeader env 200).header = res.header.checkLength := by
  cases hu : res.unwritten with
  | false => exact .inl (by rw [writeHeader_written hu])
  | true => exact .inr (by rw [writeHeader_unwritten hu])

theorem prepared_header (h : (res.prepared env).chunked = false) :
    (res.prepared env).header = (res.writeHeader env 200).header := by
  unfold prepared at h ⊢
  generalize res.writeHeader env 200 = w at h
  cases hc : w.chunkChecked with
  | true => rw [checkChunked_done hc]
  | false =>
    rw [checkChunked_first hc] at h ⊢
    simp only [Bool.or_eq_false_iff] at h
    simp [h.1.1, h.1.2, h.2]

theorem declared_of_parseInt {v : Int} (hchunked : (res.prepared env).chunked = false)
    (hv : parseInt (res.header.get contentLengthHeader) 10 64 = .ok v) (hnn : 0 ≤ v) :
    (res.prepared env).header = res.header ∧ (res.prepared env).declared = .ok v := by
  have hne : res.header.get contentLengthHeader ≠ [] := by
    intro hnil
    rw [hnil] at hv
    cases hv
  have hcheck : res.header.checkLength = res.header := by
    rw [Header.checkLength, if_neg hne, hv]
    exact if_pos hnn
  have hheader : (res.prepared env).header = res.header := by
    rw [prepared_header hchunked]
    rcases res.writeHeader_header env with h | h
    · exact h
    · rw [h, hcheck]
  refine ⟨hheader, ?_⟩
  rw [declared, hheader, if_neg hne, hv]

end Response

namespace Sheet

variable {env : Env} {res : Response} {s : Sheet} {cl : Int}

def headBytes (env : Env) (res : Response) (s : Sheet) : Bytes :=
  s.head.getD (res.headOf env s.hasBody s.body)

theorem write_declared (hcl : res.Declares cl) (data : Bytes) :
    s.write env res data = if cl < s.body.length + data.length then { s with hasBody := true }
      else { { s with hasBody := true }.encode env res with body := s.body ++ data } := by
  rw [write, hcl.1]
  exact if_pos hcl.2

theorem call_headBytes (env : Env) (hcl : res.Declares cl)
    (h : s.head ≠ none ∨ s.hasBody = true) (op : Op) :
    ((s.call env res op).head ≠ none ∨ (s.call env res op).hasBody = true) ∧
      (s.call env res op).headBytes env res = s.headBytes env res := by
  cases op with
  | flush => exact ⟨.inl nofun, rfl⟩
  | write data =>
    cases data with
    | nil => exact ⟨h, rfl⟩
    | cons c cs =>
      change (((s.write env res (c :: cs)).head ≠ none ∨
          (s.write env res (c :: cs)).hasBody = true) ∧
        (s.write env res (c :: cs)).headBytes env res = s.headBytes env res)
      have hbytes : { s with hasBody := true }.headBytes env res = s.headBytes env res := by
        unfold headBytes
        rcases h with h | h
        · obtain ⟨hd, hhd⟩ := ne_none_iff_exists'.1 h
          simp [hhd]
        · rw [h]
      rw [write_declared hcl]
      split
      · exact ⟨.inr rfl, hbytes⟩
      · exact ⟨.inl nofun, hbytes⟩

theorem run_headBytes (hcl : res.Declares cl) (h : s.head ≠ none ∨ s.hasBody = true)
    (ops : List Op) :
    (ops.foldl (·.call env res) s).headBytes env res = s.headBytes env res := by
  induction ops generalizing s with
  | nil => rfl
  | cons op ops ih =>
    obtain ⟨hnext, heq⟩ := call_headBytes env hcl h op
    exact (ih hnext).trans heq

theorem blank_headBytes (hcl : res.Declares cl) (ops : List Op) :
    (ops.foldl (·.call env res) blank).headBytes env res =
      res.headOf env (firstWrites ops) [] := by
  induction ops with
  | nil => rfl
  | cons op ops ih =>
    cases op with
    | flush => exact run_headBytes (s := blank.encode env res) hcl (.inl nofun) ops
    | write data =>
      cases data with
      | nil => exact ih
      | cons c cs =>
        have hwrite : (blank.write env res (c :: cs)).hasBody = true ∧
            (blank.write env res (c :: cs)).headBytes env res = res.headOf env true [] := by
          rw [write_declared hcl]
          split
          · exact ⟨rfl, rfl⟩
          · exact ⟨rfl, rfl⟩
        exact (run_headBytes hcl (.inr hwrite.1) ops).trans hwrite.2

end Sheet

namespace Exchange

def unrefused (env : Env) (x : Exchange) : List Op → List Bytes
  | [] => []
  | .write data :: ops =>
    if (x.write env data).1.2 = some .contentLength then (x.write env data).2.unrefused env ops
    else data :: (x.write env data).2.unrefused env ops
  | .flush :: ops => (x.Flush env).unrefused env ops

theorem unrefused_prepare {x : Exchange} (hconn : x.res.conn = true)
    (hhij : x.res.hijacked = false) (env : Env) (ops : List Op) :
    x.unrefused env ops = (x.prepare env).unrefused env ops := by
  induction ops with
  | nil => rfl
  | cons op ops ih =>
    cases op with
    | flush => rw [unrefused, unrefused, Flush_prepare hconn hhij]
    | write data =>
      by_cases hne : data = []
      · have hnil : ∀ y : Exchange, y.write env [] = ((0, none), y) := fun y => if_pos (.inl rfl)
        rw [hne, unrefused, unrefused, hnil, hnil, ih]
      · rw [unrefused, unrefused, write_prepare hne hconn]

end Exchange

namespace Plain

variable {env : Env} {res : Response} {x : Exchange} {s : Sheet} {cl : Int} {data : Bytes}

variable (h : Plain env res x s) (hres : res.IsPlain env) (hok : ∀ n, env.connErr n = none)

include h hres hok

theorem refuses_iff (hcl : res.Declares cl) (data : Bytes) :
    (x.write env data).1.2 = some .contentLength ↔ cl < s.body.length + data.length := by
  have hbody := (h.whole hok).2
  have hbound := h.bounded cl hcl
  by_cases hne : data = []
  · subst hne
    rw [length_nil]
    constructor
    · intro hrefused
      cases hrefused
    · omega
  · obtain ⟨n, -, -, hrefuse, haccept, -⟩ := h.write_eq hres hne
    by_cases hlong : cl < x.res.bodyWritten + data.length
    · rw [hrefuse cl hcl hlong, ← hbody]
      exact ⟨fun _ => hlong, fun _ => rfl⟩
    · rw [haccept cl hcl hlong, ← hbody]
      exact ⟨fun hno => absurd hno (Exchange.writeBody_other hcl.2 env _ data),
        fun hno => absurd hno hlong⟩

theorem refused (hcl : res.Declares cl) (hno : (x.write env data).1.2 = some .contentLength) :
    (x.write env data).2.sent = x.sent ∧ (x.write env data).2.whole = x.whole := by
  have hlong := (h.refuses_iff hres hok hcl data).1 hno
  rw [← (h.whole hok).2] at hlong
  have hne : data ≠ [] := by
    rintro rfl
    cases hno
  obtain ⟨n, -, -, hrefuse, -, -⟩ := h.write_eq hres hne
  rw [hrefuse cl hcl hlong]
  exact ⟨rfl, rfl⟩

theorem run_body (hcl : res.Declares cl) (ops : List Op) :
    (ops.foldl (·.call env res) s).body = s.body ++ (x.unrefused env ops).flatten := by
  induction ops generalizing x s with
  | nil => simp [Exchange.unrefused]
  | cons op ops ih =>
    cases op with
    | flush => exact ih (h.Flush hres)
    | write data =>
      have hrefuse := h.refuses_iff hres hok hcl data
      have hstep := ih (h.call hres (.write data))
      rw [foldl_cons, hstep, Exchange.unrefused]
      change _ ++ ((x.write env data).2.unrefused env ops).flatten = _
      cases data with
      | nil =>
        rfl
      | cons c cs =>
        have hcall : s.call env res (.write (c :: cs)) = s.write env res (c :: cs) := rfl
        rw [hcall, Sheet.write_declared hcl]
        by_cases hlong : cl < s.body.length + (c :: cs).length
        · rw [if_pos (hrefuse.2 hlong), if_pos hlong]
        · rw [if_neg fun hno => hlong (hrefuse.1 hno), if_neg hlong, flatten_cons, ← append_assoc]

end Plain

/-- A response to which a positive length has been given, when no write to the connection fails:
the head goes out, and then the data of the writes that are not refused, in order; a write is
refused if it would exceed the length, and it then sends nothing and changes nothing that
waits. -/
theorem declared_length_response {env : Env} {res : Response} (hres : res.Unused)
    (hchunked : (res.prepared env).chunked = false) {cl : Int}
    (hcl : parseInt (res.header.get contentLengthHeader) 10 64 = .ok cl) (hpos : 0 < cl)
    (hok : ∀ n, env.connErr n = none) (ops : List Op) :
    res.exchange.respond env ops =
        res.head env ops ++ (res.exchange.unrefused env ops).flatten ∧
      ∀ before data after, ops = before ++ .write data :: after →
        let x := before.foldl (·.call env) res.exchange
        ((x.write env data).1.2 = some .contentLength ↔
          cl < (res.exchange.unrefused env before).flatten.length + data.length) ∧
        ((x.write env data).1.2 = some .contentLength →
          (x.write env data).2.sent = x.sent ∧ (x.write env data).2.whole = x.whole) := by
  obtain ⟨hheader, hdecl⟩ := Response.declared_of_parseInt hchunked hcl hpos.le
  have hcl' : (res.prepared env).Declares cl := ⟨hdecl, hpos⟩
  have hplain := hres.isPlain hchunked
  have hconn : res.exchange.res.conn = true := hres.conn
  have hhij : res.exchange.res.hijacked = false := hres.hijacked
  have hbody : ∀ ops, (res.sheet env ops).body = (res.exchange.unrefused env ops).flatten := by
    intro ops
    rw [Exchange.unrefused_prepare hconn hhij]
    exact (hres.plain env).run_body hplain hok hcl' ops
  constructor
  · have hhead : res.plainHead env ops = res.head env ops := by
      rw [hres.head_eq]
      exact Sheet.blank_headBytes hcl' ops
    rw [hres.respond env hchunked hok, hhead, hbody]
  · rintro before data after -
    have hrun := (hres.plain env).run hplain before
    have hlen : (res.sheet env before).body.length =
        (res.exchange.unrefused env before).flatten.length := by rw [hbody]
    obtain ⟨hresult, hsent, hwhole, hsent', hwhole'⟩ :=
      Exchange.write_foldl_prepare env hconn hhij before data
    dsimp only
    rw [hresult, hsent, hwhole, hsent', hwhole', ← hlen]
    exact ⟨hrun.refuses_iff hplain hok hcl' data, hrun.refused hplain hok hcl'⟩

/-- The response whose length is 65536 keeps what fits. -/
theorem declared_length_response_sized :
    sizedResponse.exchange.respond crEnv [.write (ascii "ab"), .flush, .write (ascii "c")] =
      sizedResponse.head crEnv [.write (ascii "ab"), .flush, .write (ascii "c")] ++
        ascii "abc" := by
  have hlength : parseInt (sizedResponse.header.get contentLengthHeader) 10 64 = .ok 65536 := by
    decide +kernel
  rw [(declared_length_response sizedResponse_unused (by decide +kernel) hlength (by decide)
    (fun _ => rfl) _).1]
  decide +kernel

/-! ## The length that is announced -/

def unflushed (ops : List Op) : Bytes := (written (ops.takeWhile (· ≠ .flush))).flatten

def behindFlush (ops : List Op) : Bytes := (written (ops.dropWhile (· ≠ .flush))).flatten

theorem written_append (a b : List Op) : written (a ++ b) = written a ++ written b := by
  induction a with
  | nil => rfl
  | cons op a ih =>
    cases op with
    | write data => exact congrArg (data :: ·) ih
    | flush => exact ih

theorem unflushed_append_behindFlush (ops : List Op) :
    unflushed ops ++ behindFlush ops = (written ops).flatten := by
  rw [unflushed, behindFlush, ← flatten_append, ← written_append, takeWhile_append_dropWhile]

namespace Sheet

variable {env : Env} {res : Response} {s : Sheet} {cl : Int}

theorem write_undeclared (hcl : res.declared = .ok cl) (hpos : ¬ 0 < cl) (data : Bytes) :
    s.write env res data = { s with hasBody := true, body := s.body ++ data } := by
  rw [write, hcl]
  exact if_neg hpos

theorem run_body_undeclared (hcl : res.declared = .ok cl) (hpos : ¬ 0 < cl) (ops : List Op) :
    (ops.foldl (·.call env res) s).body = s.body ++ (written ops).flatten := by
  induction ops generalizing s with
  | nil => simp [written]
  | cons op ops ih =>
    rw [foldl_cons, ih]
    cases op with
    | flush => rfl
    | write data =>
      cases data with
      | nil => rfl
      | cons c cs =>
        have hcall : s.call env res (.write (c :: cs)) = s.write env res (c :: cs) := rfl
        rw [hcall, write_undeclared hcl hpos, written, flatten_cons, ← append_assoc]

theorem call_head_cases (env : Env) (res : Response) (s : Sheet) (op : Op) :
    (s.call env res op).head = s.head ∨
    ∃ b, (s.call env res op).head = some (s.head.getD (res.headOf env b s.body)) := by
  cases op with
  | flush => exact .inr ⟨s.hasBody, rfl⟩
  | write data =>
    cases data with
    | nil => exact .inl rfl
    | cons c cs =>
      change (s.write env res (c :: cs)).head = s.head ∨
        ∃ b, (s.write env res (c :: cs)).head = some (s.head.getD (res.headOf env b s.body))
      unfold write
      dsimp only
      split
      · exact .inl rfl
      · split
        · split
          · exact .inl rfl
          · exact .inr ⟨true, rfl⟩
        · exact .inl rfl

theorem run_head (env : Env) (res : Response) {h : Bytes} (hs : s.head = some h) (ops : List Op) :
    (ops.foldl (·.call env res) s).head = some h := by
  induction ops generalizing s with
  | nil => exact hs
  | cons op ops ih =>
    refine ih ?_
    rcases s.call_head_cases env res op with heq | ⟨b, heq⟩
    · rw [heq, hs]
    · rw [heq, hs]
      rfl

theorem run_headBytes_exists (env : Env) (res : Response) (hs : s.head = none) (ops : List Op) :
    ∃ b body, (ops.foldl (·.call env res) s).headBytes env res = res.headOf env b body := by
  induction ops generalizing s with
  | nil => exact ⟨_, _, by rw [foldl_nil, headBytes, hs]; rfl⟩
  | cons op ops ih =>
    rcases s.call_head_cases env res op with heq | ⟨b, heq⟩
    · exact ih (heq.trans hs)
    · rw [hs] at heq
      exact ⟨b, s.body, by rw [foldl_cons, headBytes, run_head env res heq]; rfl⟩

theorem run_headBytes_undeclared (hcl : res.declared = .ok cl) (hpos : ¬ 0 < cl)
    (hs : s.head = none) (hbody : s.hasBody = !s.body.isEmpty) (ops : List Op) :
    (ops.foldl (·.call env res) s).headBytes env res =
      res.headOf env (!(s.body ++ unflushed ops).isEmpty) (s.body ++ unflushed ops) := by
  induction ops generalizing s with
  | nil => simp [unflushed, written, headBytes, hs, hbody]
  | cons op ops ih =>
    cases op with
    | flush =>
      have hnil : unflushed (.flush :: ops) = [] := rfl
      have hhead : (s.encode env res).head = some (res.headOf env (!s.body.isEmpty) s.body) := by
        rw [encode, hs, hbody]
        rfl
      rw [hnil, append_nil]
      have hrun := run_head env res hhead ops
      change ((ops.foldl (·.call env res) (s.encode env res)).head).getD _ = _
      rw [hrun]
      rfl
    | write data =>
      have hdata : unflushed (.write data :: ops) = data ++ unflushed ops := by
        simp [unflushed, written]
      rw [hdata, ← append_assoc]
      cases data with
      | nil =>
        rw [append_nil]
        exact ih hs hbody
      | cons c cs =>
        have hcall : s.call env res (.write (c :: cs)) = s.write env res (c :: cs) := rfl
        rw [foldl_cons, hcall, write_undeclared hcl hpos]
        exact ih hs (by simp)

end Sheet

namespace Response

variable {env : Env} {res : Response} {cl : Option Int}

def SetsLength (res : Response) : Option Int → Prop
  | none => res.header.lacks contentLengthHeader = true
  | some v => parseInt (res.header.get contentLengthHeader) 10 64 = .ok v ∧ 0 ≤ v

theorem get_of_lacks {h : Header} {k : Bytes} (hl : h.lacks k = true) : h.get k = [] := by
  unfold Header.lacks at hl
  unfold Header.get
  cases hk : h.lookup k with
  | none => rfl
  | some vs =>
    rw [hk] at hl
    cases vs with
    | nil => rfl
    | cons v vs => cases hl

theorem SetsLength.prepared (h : res.SetsLength cl)
    (hchunked : (res.prepared env).chunked = false) :
    (res.prepared env).header = res.header ∧ (res.prepared env).declared = .ok (cl.getD 0) := by
  cases cl with
  | some v => exact declared_of_parseInt hchunked h.1 h.2
  | none =>
    have hnil := get_of_lacks h
    have hheader : (res.prepared env).header = res.header := by
      rw [prepared_header hchunked]
      rcases res.writeHeader_header env with heq | heq
      · exact heq
      · rw [heq, Header.checkLength_of_get_nil hnil]
    refine ⟨hheader, ?_⟩
    rw [declared, hheader, if_pos hnil]
    rfl

/-- The number that the head announces: that of the handler, or the bytes written before the
first flush. -/
def announcedLength (cl : Option Int) (ops : List Op) : Int := cl.getD (unflushed ops).length

def announcedText (res : Response) (cl : Option Int) (ops : List Op) : Bytes :=
  if cl = none then decimal (unflushed ops).length else res.header.get contentLengthHeader

theorem plainHead_connErr (env : Env) (res : Response) (ops : List Op)
    (connErr : Nat → Option (Int × Bytes)) :
    res.plainHead { env with connErr := connErr } ops = res.plainHead env ops := rfl

theorem headOf_announces (hchunked : res.chunked = false)
    (hlacks : res.header.lacks contentLengthHeader = true) (env : Env) (body : Bytes) :
    fieldLine (contentLengthHeader, decimal body.length) ++ crlf <:+:
      res.headOf env (!body.isEmpty) body := by
  refine fieldLine_infix (mem_append_left _ ?_)
  have htext : (if (!body.isEmpty) = true then decimal body.length else ascii "0") =
      decimal body.length := by
    cases body with
    | nil => exact (show ascii "0" = decimal 0 by decide)
    | cons c cs => rfl
  refine mem_append_left _ (mem_append_left _ (mem_append_right _ ?_))
  dsimp only [map_some, getD_some]
  rw [hchunked, hlacks, htext]
  exact mem_cons_self

theorem headOf_declares (htrailer : res.header.lacks trailerHeader = true)
    (hne : res.header.get contentLengthHeader ≠ []) (env : Env) (hasBody : Bool) (body : Bytes) :
    fieldLine (contentLengthHeader, res.header.get contentLengthHeader) ++ crlf <:+:
      res.headOf env hasBody body := by
  refine fieldLine_infix (mem_append_right _ (mem_headerFields.2 ?_))
  have hnames :
      { res with hasBody := hasBody, bodyBuffer := some ⟨0, body⟩ }.trailerNames = [] := by
    have hnil : (res.header.lookup trailerHeader).getD [] = [] := by
      simpa [Header.lacks] using htrailer
    simp [trailerNames, hnil]
  rw [hnames]
  unfold Header.get at hne ⊢
  cases hl : res.header.lookup contentLengthHeader with
  | none => simp [hl] at hne
  | some vs =>
    rw [hl] at hne
    cases vs with
    | nil => exact absurd rfl hne
    | cons v vs =>
      refine ⟨v :: vs, ?_, by simp, by simp⟩
      obtain ⟨kv, hfind, heq⟩ := map_eq_some_iff.1 hl
      have hkey : kv.1 = contentLengthHeader := by simpa using find?_some hfind
      have hmem := mem_of_find?_eq_some hfind
      rw [show kv = (contentLengthHeader, v :: vs) from Prod.ext hkey heq] at hmem
      exact hmem

theorem Unused.lacks_trailer (h : res.Unused) (hchunked : (res.prepared env).chunked = false) :
    (res.prepared env).header.lacks trailerHeader = true := by
  have hcheck : (res.writeHeader env 200).chunkChecked = false :=
    (res.writeHeader_framing env 200).1.trans h.chunkChecked
  rw [prepared_header hchunked]
  rw [prepared, checkChunked_first hcheck] at hchunked
  simp only [fallsBackToChunking, Bool.or_eq_false_iff] at hchunked
  simpa using hchunked.2.2

theorem Unused.plainHead_announces (h : res.Unused) (hchunked : (res.prepared env).chunked = false)
    (hcl : res.SetsLength cl) (ops : List Op) :
    fieldLine (contentLengthHeader, res.announcedText cl ops) ++
      crlf <:+: res.plainHead env ops := by
  obtain ⟨hheader, hdecl⟩ := hcl.prepared hchunked
  cases cl with
  | none =>
    have hhead : res.plainHead env ops =
        (res.prepared env).headOf env (!(unflushed ops).isEmpty) (unflushed ops) :=
      Sheet.run_headBytes_undeclared hdecl (by decide) rfl rfl ops
    rw [hhead]
    exact headOf_announces hchunked (by rw [hheader]; exact hcl) env _
  | some v =>
    obtain ⟨b, body, hhead⟩ := Sheet.run_headBytes_exists (s := Sheet.blank) env
      (res.prepared env) rfl ops
    have hne : res.header.get contentLengthHeader ≠ [] := by
      intro hnil
      have hv := hcl.1
      rw [hnil] at hv
      cases hv
    have hline := headOf_declares (h.lacks_trailer hchunked) (by rw [hheader]; exact hne) env b body
    rw [hheader, ← hhead] at hline
    exact hline

end Response

/-- A response that is not chunked, whatever the connection does: its head announces the length
that the handler has set, or the number of bytes written before the first flush; and no more bytes
follow than that, exactly if the handler has set a positive length, or has set zero and writes
nothing, or has set none and writes nothing behind its first flush. -/
theorem body_le_announced_iff {env : Env} {res : Response} (hres : res.Unused)
    (hchunked : (res.prepared env).chunked = false) {cl : Option Int} (hcl : res.SetsLength cl)
    (ops : List Op) :
    Response.fieldLine (contentLengthHeader, res.announcedText cl ops) ++ crlf <:+:
      res.plainHead env ops ∧
    ((∀ connErr rest,
        res.exchange.respond { env with connErr := connErr } ops = res.plainHead env ops ++ rest →
        rest.length ≤ Response.announcedLength cl ops) ↔
      (∃ v, cl = some v ∧ 0 < v) ∨ (cl = some 0 ∧ (written ops).flatten = []) ∨
        (cl = none ∧ behindFlush ops = [])) := by
  obtain ⟨hheader, hdecl⟩ := hcl.prepared hchunked
  constructor
  · exact hres.plainHead_announces hchunked hcl ops
  constructor
  · intro hall
    by_cases hpos : 0 < cl.getD 0
    · cases cl with
      | none => exact absurd hpos (by decide)
      | some v => exact .inl ⟨v, rfl, hpos⟩
    · have hwire := hres.respond { env with connErr := fun _ => none } hchunked
        (fun _ => rfl) ops
      have hbody : (res.sheet { env with connErr := fun _ => none } ops).body =
          (written ops).flatten :=
        Sheet.run_body_undeclared hdecl hpos ops
      have hle := hall (fun _ => none) _ hwire
      rw [hbody] at hle
      cases cl with
      | some v =>
        obtain rfl : v = 0 := by
          have := hcl.2
          dsimp only [Option.getD_some] at hpos
          omega
        dsimp only [Response.announcedLength, Option.getD_some] at hle
        exact .inr (.inl ⟨rfl, length_eq_zero_iff.1 (by omega)⟩)
      | none =>
        refine .inr (.inr ⟨rfl, length_eq_zero_iff.1 ?_⟩)
        rw [← unflushed_append_behindFlush, length_append] at hle
        dsimp only [Response.announcedLength, Option.getD_none] at hle
        omega
  · intro hcond connErr rest hwire
    have hle := hres.respond_le { env with connErr := connErr } hchunked ops
    rw [hwire, Response.plainHead_connErr env res ops connErr, length_append] at hle
    have hrun := (hres.plain { env with connErr := connErr }).run (hres.isPlain hchunked) ops
    suffices hcount : (ops.foldl (·.call { env with connErr := connErr })
        (res.exchange.prepare { env with connErr := connErr })).res.bodyWritten ≤
        Response.announcedLength cl ops by omega
    by_cases hpos : 0 < cl.getD 0
    · cases cl with
      | none => exact absurd hpos (by decide)
      | some v => exact hrun.bounded v ⟨hdecl, hpos⟩
    · have hno : ¬ ∃ cl, (res.prepared env).Declares cl := by
        rintro ⟨cl', hcl', hpos'⟩
        cases hdecl.symm.trans hcl'
        exact hpos hpos'
      have hbody : (ops.foldl (·.call { env with connErr := connErr }
          (res.prepared { env with connErr := connErr })) Sheet.blank).body =
          (written ops).flatten :=
        Sheet.run_body_undeclared hdecl hpos ops
      rw [hrun.counted hno, hbody]
      rcases hcond with ⟨v, rfl, hv⟩ | ⟨rfl, hnil⟩ | ⟨rfl, hnil⟩
      · exact absurd hv hpos
      · rw [hnil]
        exact Int.le_refl 0
      · rw [← unflushed_append_behindFlush, hnil, append_nil]
        exact Int.le_refl _

theorem body_le_announced_iff_sized :
    sizedResponse.SetsLength (some 65536) ∧ ∀ connErr rest,
      sizedResponse.exchange.respond { crEnv with connErr := connErr } [.write (ascii "ab")] =
        sizedResponse.plainHead crEnv [.write (ascii "ab")] ++ rest →
          rest.length ≤ (65536 : Int) := by
  have hset : sizedResponse.SetsLength (some 65536) := ⟨by decide +kernel, by decide⟩
  exact ⟨hset, (body_le_announced_iff sizedResponse_unused (by decide +kernel) hset
    [.write (ascii "ab")]).2.2 (.inl ⟨65536, rfl, by decide⟩)⟩

/-- A response to which the length zero has been given. -/
def zeroResponse : Response :=
  { plainResponse with header := [(contentLengthHeader, [ascii "0"])] }

def oldResponse : Response :=
  newResponse { proto := ascii "HTTP/1.0", protoMajor := 1, protoMinor := 0, close := false }

/-- Two bytes behind a head that announces none: a length of zero is taken for none at all, and a
flush has the head announce what is cached. -/
theorem announced_zero_exceeded :
    zeroResponse.exchange.respond crEnv [.write (ascii "ab")] =
        zeroResponse.plainHead crEnv [.write (ascii "ab")] ++ ascii "ab" ∧
      Response.announcedLength (some 0) [.write (ascii "ab")] = 0 ∧
    oldResponse.exchange.respond crEnv [.flush, .write (ascii "ab")] =
        oldResponse.plainHead crEnv [.flush, .write (ascii "ab")] ++ ascii "ab" ∧
      Response.announcedLength none [.flush, .write (ascii "ab")] = 0 ∧
    Response.fieldLine (contentLengthHeader, ascii "0") ++ crlf <:+:
      zeroResponse.plainHead crEnv [.write (ascii "ab")] ∧
    Response.fieldLine (contentLengthHeader, ascii "0") ++ crlf <:+:
      oldResponse.plainHead crEnv [.flush, .write (ascii "ab")] := by
  decide +kernel

end Nbio.Http
