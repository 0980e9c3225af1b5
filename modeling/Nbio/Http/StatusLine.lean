import Nbio.Http.Calls
import Nbio.Http.Canonical

/-!
# The status line of a response

A client's parser reads the status line of a response in six states, of which the last two take the
reason phrase.  `statusBefore` skips every byte that is neither a letter nor a space, the end of the
line included, and `status` fixes the phrase at the first space.
-/

namespace Nbio.Http

open Nbio.Go Nbio.Lib List
open Callback

/-! ## Responses -/

/-- A response with a status line of the form `HTTP/x.y code reason`, in which every header field
and the body are written as in a canonical request.  Nothing is asked of the reason phrase but that
it stays on its line. -/
structure Reply where
  major : UInt8
  minor : UInt8
  code : Bytes
  reason : Bytes
  before : List HeaderField
  body : Body
  after : List HeaderField
  major_num : isNum major = true
  minor_num : isNum minor = true
  code_length : code.length = 3
  code_num : code.all isNum = true
  reason_line : reason.all (fun c => c != CR && c != LF) = true

namespace Reply

def version (r : Reply) : Bytes := ascii "HTTP/" ++ [r.major, 46, r.minor]

def headers (r : Reply) : Bytes :=
  r.before.flatMap HeaderField.serialize ++ (r.body.header ++ r.after.flatMap HeaderField.serialize)

def serialize (r : Reply) : Bytes :=
  r.version ++ SP ::
    (r.code ++ SP :: (r.reason ++ (crlf ++ (r.headers ++ (crlf ++ r.body.serialize)))))

def statusCode (r : Reply) : Int := digitsVal 10 0 r.code

def fieldCalls (r : Reply) : Log :=
  r.before.map HeaderField.call ++ r.body.headerCall ++ r.after.map HeaderField.call

def headCalls (r : Reply) : Log := .onStatus r.statusCode r.reason :: r.fieldCalls

end Reply

def Callback.ofHead : Callback → Bool
  | .onStatus _ _ | .onHeader _ _ => true
  | _ => false

/-! ## Runs over the status line -/

section Run

variable {p : Fields} {log : Log} {kept : Bytes}

theorem run_version_client {version : Bytes} (hfirst : version.head? = some 72)
    (hline : SP ∉ version) :
    (scanner .accept).Consumes ⟨newFields true, log, []⟩ (version ++ [SP])
      ⟨{ newFields true with state := .statusCodeBefore }, log ++ [onProto version],
        version ++ [SP]⟩ := by
  obtain ⟨cs, rfl⟩ : ∃ cs, version = 72 :: cs := by
    cases version with
    | nil => cases hfirst
    | cons c cs => exact ⟨cs, congrArg (· :: cs) (Option.some.inj hfirst)⟩
  let q : Fields := { newFields true with state := .clientProto }
  have hstart : onByte .accept (newFields true) log (some []) 72 = .go q log .here := rfl
  have hkeep : ∀ c' ∈ cs, ∀ kept, onByte .accept q log (some kept) c' = .go q log .keep := by
    intro c' hc' kept
    refine if_neg ?_
    rintro rfl
    exact hline (mem_cons_of_mem _ hc')
  have hend : onByte .accept q log (some (72 :: cs)) SP =
      .go { q with state := .statusCodeBefore } (log ++ [onProto (72 :: cs)]) .keep := rfl
  exact (run_word hstart hkeep rfl rfl rfl rfl rfl rfl).append (run_byte hend rfl rfl rfl)

theorem atoi_code {code : Bytes} (hlen : code.length = 3) (hnum : code.all isNum = true) :
    atoi code = .ok (digitsVal 10 0 code) := by
  have hs : IsDigits 10 code := fun c hc => isNum_digit (all_eq_true.1 hnum c hc)
  have hlt := digitsVal_lt 0 hs
  rw [hlen] at hlt
  have hne : code ≠ [] := by
    rintro rfl
    cases hlen
  exact parseInt_digits (by decide) hne hs (by decide) (by omega)

theorem run_code {code : Bytes} (hlen : code.length = 3) (hnum : code.all isNum = true) :
    (scanner .accept).Consumes ⟨{ newFields true with state := .statusCodeBefore }, log, kept⟩
      (code ++ [SP]) ⟨{ newFields true with
        state := .statusBefore, statusCode := digitsVal 10 0 code }, log, code ++ [SP]⟩ := by
  have hatoi := atoi_code hlen hnum
  have hall := all_eq_true.1 hnum
  obtain ⟨c, cs, rfl⟩ : ∃ c cs, code = c :: cs := by
    cases code with
    | nil => cases hlen
    | cons c cs => exact ⟨c, cs, rfl⟩
  let q : Fields := { newFields true with state := .statusCode }
  have hstart : onByte .accept { q with state := .statusCodeBefore } log (some kept) c =
      .go q log .here := by
    have hc := hall c mem_cons_self
    exact (if_neg (isNum_ne hc).2.2).trans (if_pos hc)
  have hkeep : ∀ c' ∈ cs, ∀ kept, onByte .accept q log (some kept) c' = .go q log .keep := by
    intro c' hc' kept
    have hc := hall c' (mem_cons_of_mem c hc')
    refine (if_neg (isNum_ne hc).2.2).trans (if_neg ?_)
    rw [hc]
    exact Bool.false_ne_true
  have hend : onByte .accept q log (some (c :: cs)) SP =
      .go { q with state := .statusBefore, statusCode := digitsVal 10 0 (c :: cs) } log .keep := by
    simp only [onByte, withSlice, hatoi]
    rfl
  exact (run_word hstart hkeep rfl rfl rfl rfl rfl rfl).append (run_byte hend rfl rfl rfl)

/-- A status that can be reported: it begins with a letter and has no space. -/
def IsWord (text : Bytes) : Prop := text.head?.any isAlpha = true ∧ SP ∉ text

instance (text : Bytes) : Decidable (IsWord text) :=
  inferInstanceAs (Decidable (text.head?.any isAlpha = true ∧ SP ∉ text))

theorem IsWord.ne_nil {text : Bytes} (h : IsWord text) : text ≠ [] := by
  rintro rfl
  cases h.1

theorem IsWord.snoc {text : Bytes} {c : UInt8} (h : IsWord text) (hc : c ≠ SP) :
    IsWord (text ++ [c]) := by
  refine ⟨?_, ?_⟩
  · rw [head?_append_of_ne_nil _ h.ne_nil]
    exact h.1
  · simp only [mem_append, mem_singleton, not_or]
    exact ⟨h.2, hc.symm⟩

/-- The status once `OnStatus` is called: the text up to the first space, if there was one. -/
def Fields.statusText (p : Fields) (kept : Bytes) : Bytes :=
  if p.status = [] then kept else p.status

theorem withSlice_status (status : Bytes) (k : Bytes → Act) :
    withSlice p log (orSlice status (some kept)) k = k (if status = [] then kept else status) := by
  unfold orSlice
  split <;> rfl

/-- What the state `status` makes of any input: no call, or first of all a call of `OnStatus` with a
word. -/
theorem run_status (xs : Bytes) (hst : p.state = .status) (hpc : p.parserCloser = false)
    (hword : IsWord (p.statusText kept)) :
    callsOf ((scanner .accept).run ⟨p, log, kept⟩ xs) = log ∨
      ∃ text, IsWord text ∧
        log ++ [.onStatus p.statusCode text] <+:
          callsOf ((scanner .accept).run ⟨p, log, kept⟩ xs) := by
  induction xs generalizing p kept with
  | nil => exact .inl (by rw [Scanner.run_nil]; rfl)
  | cons c xs ih =>
    by_cases hsp : c = SP
    · -- the phrase is fixed, and the state goes on to look for the end of the line
      have hgo : onByte .accept p log (some kept) c =
          .go { p with status := p.statusText kept } log .keep := by
        simp only [onByte, hst, if_pos hsp, withSlice_status, Fields.statusText]
      rw [← singleton_append, run_byte hgo hst rfl hpc]
      refine ih hst hpc ?_
      rw [Fields.statusText, if_neg hword.ne_nil]
      exact hword
    · by_cases hcr : c = CR
      · have hgo : onByte .accept p log (some kept) c =
            .go { p with statusCode := 0, status := [], state := .statusLF }
              (log ++ [.onStatus p.statusCode (p.statusText kept)]) .keep := by
          simp only [onByte, hst, if_neg hsp, if_pos hcr, withSlice_status, Fields.nextState,
            Fields.statusText]
        rw [← singleton_append, run_byte hgo hst rfl hpc]
        exact .inr ⟨_, hword, run_log_grows (Cfg.mk _ _ _) xs⟩
      · have hgo : onByte .accept p log (some kept) c = .go p log .keep := by
          simp only [onByte, hst, if_neg hsp, if_neg hcr]
        rw [← singleton_append, run_byte hgo hst rfl hpc]
        refine ih hst hpc ?_
        unfold Fields.statusText at hword ⊢
        split
        · next hnil =>
          rw [if_pos hnil] at hword
          exact hword.snoc hsp
        · next hne => rwa [if_neg hne] at hword

theorem run_statusBefore (xs : Bytes) (hst : p.state = .statusBefore)
    (hpc : p.parserCloser = false) (hstatus : p.status = []) :
    callsOf ((scanner .accept).run ⟨p, log, kept⟩ xs) = log ∨
      ∃ text, IsWord text ∧
        log ++ [.onStatus p.statusCode text] <+:
          callsOf ((scanner .accept).run ⟨p, log, kept⟩ xs) := by
  induction xs generalizing kept with
  | nil => exact .inl (by rw [Scanner.run_nil]; rfl)
  | cons c xs ih =>
    by_cases hsp : c = SP
    · have hfail : onByte .accept p log (some kept) c = .fail p log .invalidHTTPStatus := by
        simp only [onByte, hst, if_pos hsp]
      rw [run_fail xs hfail hst rfl hpc]
      exact .inl rfl
    · by_cases halpha : isAlpha c = true
      · have hgo : onByte .accept p log (some kept) c =
            .go { p with state := .status } log .here := by
          simp only [onByte, hst, if_neg hsp, if_pos halpha, Fields.nextState]
        rw [← singleton_append, run_byte hgo hst rfl hpc]
        have hword : IsWord [c] := ⟨halpha, by simpa using Ne.symm hsp⟩
        refine run_status xs rfl hpc ?_
        rw [Fields.statusText, if_pos hstatus]
        exact hword
      · have hgo : onByte .accept p log (some kept) c = .go p log .keep := by
          simp only [onByte, hst, if_neg hsp, if_neg halpha]
        rw [← singleton_append, run_byte hgo hst rfl hpc]
        exact ih

theorem run_phrase (log : Log) (word phrase : Bytes) (hst : p.state = .status)
    (hpc : p.parserCloser = false) (hstatus : p.status = []) (hword : word ≠ [])
    (hphrase : phrase.head? ≠ none → phrase.head? = some SP) (hline : ∀ c ∈ phrase, c ≠ CR) :
    ∃ status kept, (if status = [] then kept else status) = word ∧
      (scanner .accept).Consumes ⟨p, log, word⟩ phrase
        ⟨{ p with status := status }, log, kept⟩ := by
  cases phrase with
  | nil =>
    refine ⟨p.status, word, if_pos hstatus, ?_⟩
    exact (scanner .accept).consumes_nil _
  | cons c cs =>
    obtain rfl : c = SP := Option.some.inj (hphrase nofun)
    let q : Fields := { p with status := word }
    have hspace : onByte .accept p log (some word) SP = .go q log .keep := by
      simp only [q, onByte, hst, hstatus, withSlice_status, if_true]
    have hkeep : ∀ c ∈ cs, ∀ kept, onByte .accept q log (some kept) c = .go q log .keep := by
      intro c hc kept
      have hcr := hline c (mem_cons_of_mem SP hc)
      simp only [q, onByte, hst, withSlice_status, if_neg hcr, if_neg hword, ite_self]
    refine ⟨word, word ++ [SP] ++ cs, if_neg hword, ?_⟩
    exact (run_byte hspace hst rfl hpc).append (run_keep hkeep hst rfl hpc)

theorem run_reason (p : Fields) (log : Log) (kept : Bytes) {reason : Bytes}
    (hst : p.state = .statusBefore) (hpc : p.parserCloser = false) (hstatus : p.status = [])
    (halpha : reason.head?.any isAlpha = true)
    (hline : reason.all (fun c => c != CR && c != LF) = true) :
    ∃ kept', (scanner .accept).Consumes ⟨p, log, kept⟩ (reason ++ crlf)
      ⟨{ p with state := .headerKeyBefore, statusCode := 0, status := [] },
        log ++ [onStatus p.statusCode (reason.takeWhile (· != SP))], kept'⟩ := by
  obtain ⟨c, cs, rfl⟩ : ∃ c cs, reason = c :: cs := by
    cases reason with
    | nil => cases halpha
    | cons c cs => exact ⟨c, cs, rfl⟩
  have halpha : isAlpha c = true := halpha
  have hsp : c ≠ SP := by
    rintro rfl
    cases halpha
  simp only [all_eq_true, Bool.and_eq_true, bne_iff_ne] at hline
  let word := cs.takeWhile (· != SP)
  let phrase := cs.dropWhile (· != SP)
  let q : Fields := { p with state := .status }
  have hstart : onByte .accept p log (some kept) c = .go q log .here := by
    simp only [q, onByte, hst, if_neg hsp, if_pos halpha, Fields.nextState]
  have hkeep : ∀ c' ∈ word, ∀ kept, onByte .accept q log (some kept) c' = .go q log .keep := by
    intro c' hc' kept
    have hne : c' ≠ SP := by simpa using mem_takeWhile_imp hc'
    have hmem := (takeWhile_sublist (· != SP)).subset hc'
    exact (if_neg hne).trans (if_neg (hline c' (mem_cons_of_mem c hmem)).1)
  have hphrase : phrase.head? ≠ none → phrase.head? = some SP := by
    intro hne
    have hnot := head?_dropWhile_not (· != SP) cs
    cases hhead : phrase.head? with
    | none => exact absurd hhead hne
    | some d =>
      rw [hhead] at hnot
      simpa using hnot
  obtain ⟨status, kept', hword, hrun⟩ := run_phrase log (p := q) (c :: word) phrase
    rfl hpc hstatus (cons_ne_nil _ _) hphrase fun d hd =>
      (hline d (mem_cons_of_mem c ((dropWhile_suffix _).subset hd))).1
  have htake : (c :: cs).takeWhile (· != SP) = c :: word :=
    takeWhile_cons_of_pos (by simpa using hsp)
  let q' : Fields := { p with state := .statusLF, statusCode := 0, status := [] }
  have hcr : onByte .accept { q with status := status } log (some kept') CR =
      .go q' (log ++ [onStatus p.statusCode (c :: word)]) .keep := by
    simp only [q, q', onByte, withSlice_status, hword, Fields.nextState, show ¬ CR = SP by decide,
      if_false, if_true]
  have hlf : onByte .accept q' (log ++ [onStatus p.statusCode (c :: word)])
      (some (kept' ++ [CR])) LF = .go { q' with state := .headerKeyBefore }
        (log ++ [onStatus p.statusCode (c :: word)]) .keep := rfl
  have hsplit : c :: cs = c :: word ++ phrase := congrArg (c :: ·) takeWhile_append_dropWhile.symm
  refine ⟨kept' ++ [CR] ++ [LF], ?_⟩
  rw [htake, hsplit]
  exact ((run_word hstart hkeep hst rfl hpc rfl rfl hpc).append hrun).append
    ((run_byte hcr rfl rfl hpc).append (run_byte hlf rfl rfl hpc))

/-! ## Runs over the body -/

theorem calls_bodyOf (p : Fields) (log : Log) (kept : Bytes) (body : Body)
    (hst : p.state = .headerKeyBefore) (hpc : p.parserCloser = false)
    (hheader : p.header = body.framing) (hchunked : p.chunked = false) (htrailer : p.trailer = []) :
    ∃ calls : Log, calls.filter ofHead = [] ∧
      callsOf ((scanner .accept).run ⟨p, log, kept⟩ (crlf ++ body.serialize)) = log ++ calls := by
  by_cases hsized : body.Sized
  · obtain ⟨l, n, h⟩ := run_bodyOf p log kept body hsized hst hpc hheader hchunked htrailer
    refine ⟨.onContentLength body.contentLength :: (body.calls ++ [.onComplete]), ?_, ?_⟩
    · cases body with
      | chunked chunks => simp [ofHead, Body.calls]
      | _ => rfl
    · rw [h.run]
      simp [callsOf]
  · cases body with
    | chunked chunks =>
      let q : Fields := { p with
        state := .bodyChunkSizeBefore, header := [], chunked := true, contentLength := -1
        headerExists := false }
      obtain ⟨e, bodies, hrun, hlog⟩ := run_chunks_refused (p := q) rfl hpc
        (log ++ [onContentLength (-1)]) [] (ascii "0" ++ (crlf ++ crlf)) hsized
      have hsplit : Body.serialize (.chunked chunks) =
          chunks.flatMap Chunk.serialize ++ (ascii "0" ++ (crlf ++ crlf)) := by
        simp [Body.serialize]
      refine ⟨.onContentLength (-1) :: bodies.map Callback.onBody, ?_, ?_⟩
      · simp [ofHead]
      · rw [hsplit, run_blank_chunked hst hpc hheader, hrun, callsOf, hlog, append_assoc,
          singleton_append]
    | _ => exact absurd trivial hsized

end Run

/-! ## What is reported of a response -/

namespace Reply

theorem version_head (r : Reply) : r.version.head? = some 72 := rfl

theorem version_line (r : Reply) : SP ∉ r.version := by
  have hmajor := (isNum_ne r.major_num).2.2
  have hminor := (isNum_ne r.minor_num).2.2
  simp only [version, mem_append, mem_cons, not_mem_nil, or_false, not_or]
  exact ⟨by decide, hmajor.symm, by decide, hminor.symm⟩

abbrev atReason (r : Reply) : Fields :=
  { newFields true with state := .statusBefore, statusCode := r.statusCode }

theorem run_upToReason (r : Reply) :
    (scanner .accept).run ⟨newFields true, [], []⟩ r.serialize =
      (scanner .accept).run ⟨r.atReason, [.onProto r.version], r.code ++ [SP]⟩
        (r.reason ++ crlf ++ (r.headers ++ (crlf ++ r.body.serialize))) := by
  have hsplit : r.serialize = r.version ++ [SP] ++ (r.code ++ [SP] ++
      (r.reason ++ crlf ++ (r.headers ++ (crlf ++ r.body.serialize)))) := by
    simp [serialize]
  rw [hsplit, run_version_client r.version_head r.version_line, run_code r.code_length r.code_num]
  rfl

theorem fieldCalls_ofHead (r : Reply) : r.fieldCalls.filter ofHead = r.fieldCalls := by
  have hfields : ∀ fs : List HeaderField,
      (fs.map HeaderField.call).filter ofHead = fs.map HeaderField.call := by
    intro fs
    rw [filter_eq_self]
    intro cb hcb
    obtain ⟨f, -, rfl⟩ := mem_map.1 hcb
    rfl
  have hbody : r.body.headerCall.filter ofHead = r.body.headerCall := by
    cases r.body <;> rfl
  rw [fieldCalls, filter_append, filter_append, hfields, hfields, hbody]

theorem calls_of_isWord (r : Reply) (hword : IsWord r.reason) :
    (callsOf ((scanner .accept).run ⟨newFields true, [], []⟩ r.serialize)).filter ofHead =
      r.headCalls := by
  let q : Fields := { newFields true with state := .headerKeyBefore }
  let log : Log := [.onProto r.version, .onStatus r.statusCode r.reason]
  obtain ⟨kept, hreason⟩ := run_reason r.atReason [.onProto r.version] (r.code ++ [SP])
    rfl rfl rfl hword.1 r.reason_line
  have hwhole : r.reason.takeWhile (· != SP) = r.reason := by
    refine takeWhile_eq_self_iff.2 fun c hc => bne_iff_ne.2 ?_
    rintro rfl
    exact hword.2 hc
  rw [hwhole] at hreason
  obtain ⟨b, kept', hheaders⟩ := run_headers (p := q) .accept log kept r.before r.body r.after
    ⟨rfl, rfl, rfl, rfl⟩ rfl
  obtain ⟨calls, hcalls, hbody⟩ :=
    calls_bodyOf { q with header := r.body.framing, headerExists := b }
    (log ++ r.fieldCalls) kept' r.body rfl rfl rfl rfl rfl
  have hrun : callsOf ((scanner .accept).run ⟨newFields true, [], []⟩ r.serialize) =
      log ++ r.fieldCalls ++ calls := by
    rw [r.run_upToReason, hreason, ← hbody]
    exact congrArg callsOf (hheaders _)
  rw [hrun, filter_append, filter_append, hcalls, fieldCalls_ofHead, append_nil]
  rfl

theorem isWord_of_calls (r : Reply)
    (h : (callsOf ((scanner .accept).run ⟨newFields true, [], []⟩ r.serialize)).filter
      ofHead = r.headCalls) : IsWord r.reason := by
  rw [r.run_upToReason] at h
  rcases run_statusBefore (p := r.atReason) (r.reason ++ crlf ++ (r.headers ++ (crlf ++
    r.body.serialize))) rfl rfl rfl with hnone | ⟨text, hword, more, hmore⟩
  · rw [hnone] at h
    cases h
  · rw [← hmore] at h
    have hcons : onStatus r.statusCode text :: more.filter ofHead =
        .onStatus r.statusCode r.reason :: r.fieldCalls := h
    injection hcons with hcall _
    injection hcall with _ htext
    exact htext ▸ hword

/-- A client's parser reports a response as it was sent, in whatever segments it comes, if and only
if its reason phrase begins with a letter and has no space. -/
theorem feed_reports_iff (r : Reply) (readLimit : Int) (segs : List Bytes)
    (hsegs : segs.flatten = r.serialize)
    (hlimit : Parser.InLimit .accept readLimit (newParser true) [] segs) :
    ((newParser true).feed .accept readLimit [] segs).log.filter Callback.ofHead = r.headCalls ↔
      r.reason.head?.any isAlpha = true ∧ SP ∉ r.reason := by
  have hm := Parser.feed_matches_flatten accept_neverUpgrades (newParser_ready .accept true [])
    hlimit
  rw [hm.log_eq, hsegs]
  exact ⟨r.isWord_of_calls, r.calls_of_isWord⟩

def sample (code reason : Bytes) (hlen : code.length = 3) (hnum : code.all isNum = true)
    (hline : reason.all (fun c => c != CR && c != LF) = true) : Reply where
  major := 49
  minor := 49
  code := code
  reason := reason
  before := []
  body := .sized (ascii "5") (ascii "hello") (by decide) (by decide) (by decide) (by decide)
  after := []
  major_num := by decide
  minor_num := by decide
  code_length := hlen
  code_num := hnum
  reason_line := hline

/-- `200 OK`, cut behind the status line. -/
theorem feed_reports_ok :
    ((newParser true).feed .accept 1024 []
      [ascii "HTTP/1.1 200 OK\r\n", ascii "Content-Length: 5\r\n\r\nhello"]).log.filter
        Callback.ofHead =
      [.onStatus 200 (ascii "OK"), .onHeader (ascii "Content-Length") (ascii "5")] :=
  (feed_reports_iff (sample (ascii "200") (ascii "OK") (by decide) (by decide) (by decide)) 1024
    [ascii "HTTP/1.1 200 OK\r\n", ascii "Content-Length: 5\r\n\r\nhello"] (by decide)
    (.inl (by decide))).2 (by decide)

/-- `404 Not Found` is reported as `404 Not`, and an empty reason phrase as the next line, so that
the body of the response is taken for another response. -/
theorem feed_cuts_reason :
    (let r := sample (ascii "404") (ascii "Not Found") (by decide) (by decide) (by decide)
     let log := ((newParser true).feed .accept 0 [] [r.serialize]).log.filter Callback.ofHead
     log = [.onStatus 404 (ascii "Not"), .onHeader (ascii "Content-Length") (ascii "5")] ∧
       log ≠ r.headCalls) ∧
    (let r := sample (ascii "200") [] (by decide) (by decide) (by decide)
     let res := (newParser true).feed .accept 0 [] [r.serialize]
     res.log = [.onProto (ascii "HTTP/1.1"), .onStatus 200 (ascii "Content-Length:"),
       .onContentLength (-1), .onComplete] ∧ res.err = some .invalidMethod ∧
       res.log.filter Callback.ofHead ≠ r.headCalls) := by
  refine ⟨⟨rfl, ?_⟩, rfl, rfl, ?_⟩ <;> decide +kernel

end Reply

end Nbio.Http
