import Nbio.Http.Chunked
import Nbio.Http.HeaderNames
import Nbio.Http.StatusLine

/-!
# The head of a response as its reader sees it

The head is a block of lines that ends with an empty one.  `eoncodeHead` puts the values of the
header into it as they are.  A client's parser reads the block as one field for each value, up to
the empty line, exactly if no value holds a CR or an LF (`head_read_iff`).
-/

namespace Nbio.Http

open Nbio.Go Nbio.Lib List

/-! ## Writing a head -/

variable {k : Bytes}

namespace Response

variable {env : Env} {res : Response}

def fieldLine (kv : Bytes × Bytes) : Bytes := kv.1 ++ [COLON, SP] ++ kv.2

def firstLine (res : Response) : Bytes :=
  res.request.proto ++
    [SP, 48 + byte (res.statusCode.tdiv 100), 48 + byte (res.statusCode.tmod 100) / 10,
      48 + byte (res.statusCode.tmod 10), SP] ++ res.status

/-- The fields that `eoncodeHead` adds of itself. -/
def fixedFields (env : Env) (res : Response) : List (Bytes × Bytes) :=
  (if res.hasBody && res.header.lacks (ascii "Content-Type") then
    [(ascii "Content-Type", ascii "text/plain; charset=utf-8")] else []) ++
  (if !res.chunked && res.header.lacks contentLengthHeader then
    [(contentLengthHeader,
      if res.hasBody then decimal ((res.bodyBuffer.map fun b => b.data.length).getD 0)
      else ascii "0")]
    else []) ++
  (if res.request.close && res.header.lacks (ascii "Connection") then
    [(ascii "Connection", ascii "close")] else []) ++
  (if res.header.lacks (ascii "Date") then [(ascii "Date", env.date)] else [])

/-- The fields for the values of the header that are not trailers. -/
def headerFields (env : Env) (res : Response) : List (Bytes × Bytes) :=
  (env.rangeHeader res.header).flatMap fun kv =>
    if res.trailerNames.contains kv.1 then [] else kv.2.map fun v => (kv.1, v)

def headFields (env : Env) (res : Response) : List (Bytes × Bytes) :=
  res.fixedFields env ++ res.headerFields env

theorem fixedLines_eq (env : Env) (res : Response) :
    res.fixedLines env = (res.fixedFields env).flatMap fun kv => fieldLine kv ++ crlf := by
  have htype : ascii "Content-Type: text/plain; charset=utf-8\r\n" =
      fieldLine (ascii "Content-Type", ascii "text/plain; charset=utf-8") ++ crlf := by
    decide +kernel
  have hlength : ascii "Content-Length: " = contentLengthHeader ++ [COLON, SP] := by decide +kernel
  have hconn : ascii "Connection: close\r\n" =
      fieldLine (ascii "Connection", ascii "close") ++ crlf := by decide +kernel
  have hdate : ascii "Date: " = ascii "Date" ++ [COLON, SP] := by decide +kernel
  unfold fixedLines fixedFields
  rw [htype, hlength, hconn, hdate]
  simp only [flatMap_append, fieldLine]
  congr 1
  · congr 1
    · congr 1
      · split <;> simp
      · split <;> simp
    · split <;> simp
  · split <;> simp

theorem headerLines_eq (env : Env) (res : Response) :
    res.headerLines env = (res.headerFields env).flatMap fun kv => fieldLine kv ++ crlf := by
  unfold headerLines headerFields
  rw [flatMap_assoc]
  congr 1
  funext kv
  split
  · rfl
  · rw [flatMap_map]
    rfl

theorem headBlock_eq (env : Env) (res : Response) : res.headBlock env =
    ((res.firstLine :: (res.headFields env).map fieldLine).flatMap (· ++ [CR, LF])) ++
      CR :: LF :: [] := by
  have hfirst : res.statusLine = res.firstLine ++ crlf := rfl
  rw [headBlock, hfirst, fixedLines_eq, headerLines_eq, headFields, flatMap_cons, flatMap_map]
  simp

theorem fieldLine_infix {kv : Bytes × Bytes} (h : kv ∈ res.headFields env) :
    fieldLine kv ++ crlf <:+: res.headBlock env := by
  obtain ⟨before, after, hfields⟩ := append_of_mem h
  rw [headBlock_eq, hfields]
  refine ⟨res.firstLine ++ crlf ++ before.flatMap fun kv => fieldLine kv ++ crlf,
    (after.flatMap fun kv => fieldLine kv ++ crlf) ++ crlf, ?_⟩
  simp [flatMap_map]

/-! ## Reading what was written -/

def IsKey (k : Bytes) : Prop := k ≠ [] ∧ k.all isToken = true

def OnLine (v : Bytes) : Prop := v.all (fun c => c != CR && c != LF) = true

instance (v : Bytes) : Decidable (OnLine v) := inferInstanceAs (Decidable (_ = true))

theorem onLine_iff {v : Bytes} : OnLine v ↔ CR ∉ v ∧ LF ∉ v := by
  simp only [OnLine, all_eq_true, Bool.and_eq_true, bne_iff_ne]
  constructor
  · exact fun h => ⟨fun hcr => (h _ hcr).1 rfl, fun hlf => (h _ hlf).2 rfl⟩
  · rintro ⟨hcr, hlf⟩ c hc
    exact ⟨fun h => hcr (h ▸ hc), fun h => hlf (h ▸ hc)⟩

def fieldCall (kv : Bytes × Bytes) : Callback :=
  .onHeader (canonicalHeaderKey kv.1) (readValue kv.2)

/-- How the first line is reported, with the text of the status up to its first space. -/
def firstCalls (res : Response) : Log :=
  [.onProto res.request.proto, .onStatus res.statusCode (res.status.takeWhile (· != SP))]

end Response

/-- What the surroundings give for a head: the texts of the status codes are those of codes of
three digits, begin with a letter and are in one line, as the date is. -/
structure Env.Documented (env : Env) : Prop where
  status : ∀ code, env.statusText code ≠ [] → 100 ≤ code ∧ code < 1000 ∧
    (env.statusText code).head?.any isAlpha = true ∧ Response.OnLine (env.statusText code)
  date : Response.OnLine env.date

namespace Response

variable {env : Env} {res : Response}

theorem statusDigits {n : Int} (hlow : 100 ≤ n) (hhigh : n < 1000) :
    [48 + byte (n.tdiv 100), 48 + byte (n.tmod 100) / 10, 48 + byte (n.tmod 10)].all isNum = true ∧
      digitsVal 10 0
        [48 + byte (n.tdiv 100), 48 + byte (n.tmod 100) / 10, 48 + byte (n.tmod 10)] = n := by
  have hall : ∀ k : Nat, k < 1000 → 100 ≤ k →
      [48 + byte ((k : Int).tdiv 100), 48 + byte ((k : Int).tmod 100) / 10,
        48 + byte ((k : Int).tmod 10)].all isNum = true ∧
      digitsVal 10 0 [48 + byte ((k : Int).tdiv 100), 48 + byte ((k : Int).tmod 100) / 10,
        48 + byte ((k : Int).tmod 10)] = k := by
    decide +kernel
  obtain ⟨k, rfl⟩ := Int.eq_ofNat_of_zero_le (by omega : 0 ≤ n)
  obtain ⟨hnum, hval⟩ := hall k (by omega) (by omega)
  exact ⟨hnum, congrArg _ hval⟩

theorem run_firstLine (henv : env.Documented) (hstatus : res.status = env.statusText res.statusCode)
    (hknown : env.statusText res.statusCode ≠ []) (hproto : res.request.proto.head? = some 72)
    (hspace : SP ∉ res.request.proto) :
    ∃ kept, (scanner .accept).Consumes ⟨newFields true, [], []⟩ (res.firstLine ++ crlf)
      ⟨{ newFields true with state := .headerKeyBefore }, res.firstCalls, kept⟩ := by
  obtain ⟨hlow, hhigh, halpha, hline⟩ := henv.status _ hknown
  obtain ⟨hnum, hval⟩ := statusDigits hlow hhigh
  let code : Bytes :=
    [48 + byte (res.statusCode.tdiv 100), 48 + byte (res.statusCode.tmod 100) / 10,
    48 + byte (res.statusCode.tmod 10)]
  have hsplit : res.firstLine ++ crlf =
      res.request.proto ++ [SP] ++ (code ++ [SP] ++ (res.status ++ crlf)) := by
    simp [firstLine, code]
  rw [← hstatus] at halpha hline
  obtain ⟨kept, hreason⟩ := run_reason { newFields true with
    state := .statusBefore, statusCode := digitsVal 10 0 code } [.onProto res.request.proto]
    (code ++ [SP]) rfl rfl rfl halpha hline
  rw [hsplit, firstCalls, ← hval]
  exact ⟨kept, (run_version_client hproto hspace).append ((run_code rfl hnum).append hreason)⟩

theorem run_fields {fields : List (Bytes × Bytes)} {p : Fields} (log : Log) (kept : Bytes)
    (hfields : ∀ kv ∈ fields, IsKey kv.1 ∧ OnLine kv.2) (hp : p.At .headerKeyBefore) :
    ∃ q kept', q.state = .headerKeyBefore ∧ (scanner .accept).Consumes ⟨p, log, kept⟩
      (fields.flatMap fun kv => fieldLine kv ++ crlf) ⟨q, log ++ fields.map fieldCall, kept'⟩ := by
  induction fields generalizing p log kept with
  | nil =>
    refine ⟨p, kept, hp.state, ?_⟩
    rw [map_nil, append_nil]
    exact (scanner .accept).consumes_nil _
  | cons kv fields ih =>
    obtain ⟨⟨hne, htoken⟩, hline⟩ := hfields kv mem_cons_self
    let key := canonicalHeaderKey kv.1
    obtain ⟨q, kept', hq, hrun⟩ := ih (log ++ [fieldCall kv]) []
      (p := { p with
        headerExists := true
        header := if Fields.isFramingKey key then p.header.add key (readValue kv.2) else p.header })
      (fun kv' hkv' => hfields kv' (mem_cons_of_mem _ hkv'))
      ⟨hp.state, hp.key, hp.value, hp.closer⟩
    rw [append_assoc] at hrun
    exact ⟨q, kept', hq, (run_headerLine hp hne htoken hline).append hrun⟩

end Response

theorem LineText.reported_onLine (t : LineText) : Response.OnLine t.reported := by
  rw [Response.onLine_iff]
  unfold LineText.reported
  split
  · simp [show ¬ CR = SP by decide, show ¬ LF = SP by decide]
  · exact ⟨fun h => (t.value_line _ h).1 rfl, fun h => (t.value_line _ h).2 rfl⟩

namespace Response

variable {env : Env} {res : Response}

theorem onLine_of_readValue {v : Bytes} (h : OnLine (readValue v)) : OnLine v := by
  have hmem : ∀ c ∈ v, c ≠ SP → c ∈ readValue v := by
    intro c hc hsp
    unfold readValue
    split
    · exact mem_cons_of_mem _ hc
    · rw [← takeWhile_append_dropWhile (p := (· == SP)) (l := v)] at hc
      rcases mem_append.1 hc with hc | hc
      · exact absurd (by simpa using mem_takeWhile_imp hc) hsp
      · exact hc
  rw [onLine_iff] at h ⊢
  exact ⟨fun hcr => h.1 (hmem _ hcr (by decide)), fun hlf => h.2 (hmem _ hlf (by decide))⟩

/-- Fields that are read back one for one have values that stay on their lines. -/
theorem onLine_of_reading {fields : List (Bytes × Bytes)} {pre : Log} {text : Bytes} {k : Cfg}
    (h : ReadingLines pre text k) (hst : k.p.state = .headerKeyBefore)
    (hlog : k.log = pre ++ fields.map fieldCall) : ∀ kv ∈ fields, OnLine kv.2 := by
  intro kv hkv
  have hmem : fieldCall kv ∈ fields.map fieldCall := mem_map_of_mem hkv
  cases h with
  | before lines n _ _ _ =>
    rw [← append_cancel_left hlog] at hmem
    obtain ⟨t, -, ht⟩ := mem_map.1 hmem
    injection ht with _ hvalue
    exact onLine_of_readValue (hvalue ▸ t.reported_onLine)
  | name _ _ hst' | valueBefore _ _ _ hst' | value _ _ hst' | valueLF _ _ hst' =>
    cases hst'.symm.trans hst
  | past calls cb hcb hpast =>
    obtain ⟨more, hmore⟩ := hpast
    rw [hlog, append_assoc, append_assoc] at hmore
    have hcall : cb ∈ fields.map fieldCall := by
      rw [← append_cancel_left hmore]
      simp
    obtain ⟨f, -, rfl⟩ := mem_map.1 hcall
    cases hcb

theorem decimal_onLine (n : Nat) : OnLine (decimal n) := by
  have hdigit : ∀ c ∈ decimal n, 48 ≤ c.toNat := by
    intro x hx
    obtain ⟨c, hc, rfl⟩ := mem_map.1 hx
    have hlist : (toString n).toList = Nat.toDigits 10 n := Nat.toList_repr
    rw [hlist] at hc
    have hdigit := Nat.isDigit_of_mem_toDigits (by decide) (by decide) hc
    simp only [Char.isDigit, Bool.and_eq_true, decide_eq_true_eq] at hdigit
    have hlow : 48 ≤ c.toNat := hdigit.1
    have hhigh : c.toNat ≤ 57 := hdigit.2
    rw [show c.toNat.toUInt8.toNat = c.toNat % 256 from rfl]
    omega
  rw [onLine_iff]
  exact ⟨fun h => absurd (hdigit _ h) (by decide), fun h => absurd (hdigit _ h) (by decide)⟩

theorem fixedFields_onLine (henv : env.Documented) {kv : Bytes × Bytes}
    (h : kv ∈ res.fixedFields env) : IsKey kv.1 ∧ OnLine kv.2 := by
  have hkeys : ∀ k ∈ [ascii "Content-Type", contentLengthHeader, ascii "Connection", ascii "Date"],
      IsKey k := by
    simp only [IsKey]
    decide +kernel
  have htype : OnLine (ascii "text/plain; charset=utf-8") := by unfold OnLine; decide +kernel
  have hclose : OnLine (ascii "close") := by unfold OnLine; decide +kernel
  have hzero : OnLine (ascii "0") := by unfold OnLine; decide +kernel
  simp only [fixedFields, mem_append] at h
  rcases h with ((h | h) | h) | h
  · split at h
    · obtain rfl := mem_singleton.1 h
      exact ⟨hkeys _ (by simp), htype⟩
    · cases h
  · split at h
    · obtain rfl := mem_singleton.1 h
      refine ⟨hkeys _ (by simp), ?_⟩
      dsimp only
      split
      · exact decimal_onLine _
      · exact hzero
    · cases h
  · split at h
    · obtain rfl := mem_singleton.1 h
      exact ⟨hkeys _ (by simp), hclose⟩
    · cases h
  · split at h
    · obtain rfl := mem_singleton.1 h
      exact ⟨hkeys _ (by simp), henv.date⟩
    · cases h

theorem mem_headerFields {v : Bytes} : (k, v) ∈ res.headerFields env ↔
    ∃ vs, (k, vs) ∈ res.header ∧ k ∉ res.trailerNames ∧ v ∈ vs := by
  have hperm := env.rangeHeader_perm res.header
  simp only [headerFields, mem_flatMap]
  constructor
  · rintro ⟨⟨k', vs⟩, hmem, hin⟩
    split at hin
    · cases hin
    · next hk =>
      obtain ⟨v', hv', heq⟩ := mem_map.1 hin
      cases heq
      exact ⟨vs, hperm.mem_iff.1 hmem, by simpa using hk, hv'⟩
  · rintro ⟨vs, hmem, hk, hv⟩
    refine ⟨(k, vs), hperm.mem_iff.2 hmem, ?_⟩
    rw [if_neg (by simpa using hk)]
    exact mem_map.2 ⟨v, hv, rfl⟩

end Response

/-- The head that `eoncodeHead` leaves in the buffer, for a status with a known text and keys that
are tokens.  Of all but the last line of it, in whatever segments it comes, a client's parser
reports the first line, the fields that are added, and one field for each value of a key that is not
a trailer, and then is in front of a line, which is the empty one, exactly if no such value holds a
CR or an LF. -/
theorem head_read_iff {env : Env} (henv : env.Documented) {x : Exchange}
    (hnew : x.res.headEncoded = false)
    (hstatus : x.res.status = env.statusText x.res.statusCode)
    (hknown : env.statusText x.res.statusCode ≠ [])
    (hproto : x.res.request.proto.head? = some 72 ∧ SP ∉ x.res.request.proto)
    (hkeys : ∀ kv ∈ x.res.header, Response.IsKey kv.1) :
    ∃ b lines, (x.eoncodeHead env).res.buffer = some b ∧ b.data = lines ++ crlf ∧
      ∀ (readLimit : Int) (segs : List Bytes), segs.flatten = lines →
        Parser.InLimit .accept readLimit (newParser true) [] segs →
        let r := (newParser true).feed .accept readLimit [] segs
        ((r.err = none ∧ r.parser.state = .headerKeyBefore ∧
          r.log = x.res.firstCalls ++
            (x.res.fixedFields env ++ x.res.headerFields env).map Response.fieldCall) ↔
          ∀ kv ∈ x.res.header, kv.1 ∉ x.res.trailerNames → ∀ v ∈ kv.2, CR ∉ v ∧ LF ∉ v) := by
  obtain ⟨-, hres⟩ := Exchange.eoncodeHead_spec env hnew
  let fields := x.res.fixedFields env ++ x.res.headerFields env
  let text := fields.flatMap fun kv => Response.fieldLine kv ++ crlf
  have hblock : x.res.headBlock env = x.res.firstLine ++ crlf ++ text ++ crlf := by
    simp [Response.headBlock_eq, Response.headFields, text, fields, flatMap_map]
  refine ⟨⟨x.nextBuf, x.res.headBlock env⟩, x.res.firstLine ++ crlf ++ text, by rw [hres], hblock,
    fun readLimit segs hsegs hlimit => ?_⟩
  have hready := newParser_ready .accept true []
  obtain ⟨kept, hfirst⟩ := Response.run_firstLine henv hstatus hknown hproto.1 hproto.2
  constructor
  · rintro ⟨herr, hst, hlog⟩
    have hrun := (Parser.feed_ready accept_neverUpgrades hready herr).2
    rw [hsegs, Parser.cfg_headerKeyBefore _ hst] at hrun
    have hrest := (hfirst text).symm.trans hrun
    have hstart :
        ReadingLines x.res.firstCalls [] ⟨{ newFields true with state := .headerKeyBefore },
        x.res.firstCalls ++ map LineText.call [], kept⟩ := .before [] 0 rfl rfl rfl
    rw [map_nil, append_nil] at hstart
    have hvalues := Response.onLine_of_reading (reading_run hstart hrest) hst hlog
    intro kv hkv hk v hv
    refine Response.onLine_iff.1 (hvalues (kv.1, v) (mem_append_right _ ?_))
    exact Response.mem_headerFields.2 ⟨kv.2, hkv, hk, hv⟩
  · intro hvalues
    have hfields : ∀ kv ∈ fields, Response.IsKey kv.1 ∧ Response.OnLine kv.2 := by
      intro kv hkv
      rcases mem_append.1 hkv with hfixed | hheader
      · exact Response.fixedFields_onLine henv hfixed
      · obtain ⟨vs, hmem, hk, hv⟩ := Response.mem_headerFields.1 hheader
        exact ⟨hkeys _ hmem, Response.onLine_iff.2 (hvalues _ hmem hk _ hv)⟩
    obtain ⟨q, kept', hq, hrun⟩ := Response.run_fields
      (p := { newFields true with state := .headerKeyBefore }) x.res.firstCalls kept
      hfields ⟨rfl, rfl, rfl, rfl⟩
    have hm := Parser.feed_matches_flatten accept_neverUpgrades hready hlimit
    rw [hsegs] at hm
    rw [hm.ok _ _ (hfirst.append hrun).run]
    exact ⟨rfl, hq, rfl⟩

def okEnv : Env :=
  { crEnv with
    statusText := fun code => if code = 200 then ascii "OK" else []
    date := ascii "Thu, 01 Jan 1970 00:00:00 GMT" }

theorem okEnv_documented : okEnv.Documented where
  status code h := by
    have hcode : code = 200 := by
      by_contra hne
      exact h (if_neg hne)
    subst hcode
    exact ⟨by decide, by decide, by decide +kernel⟩
  date := by decide +kernel

def okResponse (value : Bytes) : Response :=
  { plainResponse with status := ascii "OK", statusCode := 200, header := [(ascii "X", [value])] }

/-- `X: a`, cut behind the status line. -/
theorem head_read_iff_plain_value :
    ∃ b lines, ((okResponse (ascii "a")).exchange.eoncodeHead okEnv).res.buffer = some b ∧
      b.data = lines ++ crlf ∧
      ((newParser true).feed .accept 1024 [] [lines.take 17, lines.drop 17]).log.getLast? =
        some (.onHeader (ascii "X") (ascii "a")) := by
  obtain ⟨b, lines, hb, hlines, hiff⟩ := head_read_iff okEnv_documented
    (x := (okResponse (ascii "a")).exchange) rfl (by decide +kernel) (by decide +kernel)
    (by decide +kernel) (by simp only [Response.IsKey]; decide +kernel)
  refine ⟨b, lines, hb, hlines, ?_⟩
  have hflatten : [lines.take 17, lines.drop 17].flatten = lines := by simp
  have hlength : b.data.length ≤ 1024 := by
    have hall : (((okResponse (ascii "a")).exchange.eoncodeHead okEnv).res.buffer.all fun b =>
        decide (b.data.length ≤ 1024)) = true := by decide +kernel
    rw [hb] at hall
    exact of_decide_eq_true hall
  have hlimit : Parser.InLimit .accept 1024 (newParser true) [] [lines.take 17, lines.drop 17] := by
    rw [hlines, length_append] at hlength
    refine .inl ?_
    rw [hflatten, show (newParser true).cache = [] from rfl, length_nil]
    omega
  obtain ⟨-, -, hlog⟩ := (hiff 1024 _ hflatten hlimit).2 (by decide +kernel)
  rw [hlog]
  decide +kernel

/-- A value that ends the head: what the handler meant as its end is read as another response; and
values with one of the two bytes, which end the connection. -/
theorem head_split_by_value :
    (∃ b, ((okResponse (ascii "a\r\nSet-Cookie: b=c\r\n\r\nHTTP/1.1 200 OK")).exchange.eoncodeHead
        okEnv).res.buffer = some b ∧
      ((newParser true).feed .accept 0 [] [b.data]).log =
        [.onProto (ascii "HTTP/1.1"), .onStatus 200 (ascii "OK"),
          .onHeader (ascii "Content-Length") (ascii "0"),
          .onHeader (ascii "Date") (ascii "Thu, 01 Jan 1970 00:00:00 GMT"),
          .onHeader (ascii "X") (ascii "a"), .onHeader (ascii "Set-Cookie") (ascii "b=c"),
          .onContentLength 0, .onComplete, .onProto (ascii "HTTP/1.1"),
          .onStatus 200 (ascii "OK"), .onContentLength (-1), .onComplete]) ∧
    (∃ b, ((okResponse (ascii "a\nb")).exchange.eoncodeHead okEnv).res.buffer = some b ∧
      ((newParser true).feed .accept 0 [] [b.data]).err = some .invalidCharInHeader) ∧
    ∃ b, ((okResponse (ascii "a\rb")).exchange.eoncodeHead okEnv).res.buffer = some b ∧
      ((newParser true).feed .accept 0 [] [b.data]).err = some .lfExpected :=
  ⟨⟨_, rfl, by decide +kernel⟩, ⟨_, rfl, by decide +kernel⟩, _, rfl, by decide +kernel⟩

end Nbio.Http
