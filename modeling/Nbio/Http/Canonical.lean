import Nbio.Http.Segmentation

/-!
# Canonical requests

A request as a client writes it: a request line, header fields of the form `name: value`, a blank
line, and a body that is absent, announced by `Content-Length` or chunked.  The server's parser
decodes it (`parse_serialize`): it makes the calls `Request.calls` and waits for the next request.
-/

namespace Nbio.Http

open Nbio.Go Nbio.Lib List
open Callback

/-! ## Requests -/

/-- A header field that does not say how the body is framed. -/
structure HeaderField where
  name : Bytes
  value : Bytes
  name_ne : name ≠ []
  name_token : name.all isToken = true
  not_framing : Fields.isFramingKey (canonicalHeaderKey name) = false
  value_ne : value ≠ []
  value_line : value.all (fun c => c != CR && c != LF) = true
  value_start : value.head? ≠ some SP

/-- A chunk and its size in hexadecimal digits. -/
structure Chunk where
  size : Bytes
  data : Bytes
  data_ne : data ≠ []
  size_digits : size.all isHex = true
  size_val : digitsVal 16 0 size = data.length

/-- The body of a request, with the text of its length in decimal digits. -/
inductive Body where
  | none
  | sized (length data : Bytes) (data_ne : data ≠ []) (data_lt : data.length < 2 ^ 62)
      (digits : length.all isNum = true) (length_val : digitsVal 10 0 length = data.length)
  | chunked (chunks : List Chunk)

/-- A request; the header that frames the body stands between the fields `before` and the
fields `after`. -/
structure Request where
  method : Bytes
  target : Bytes
  version : Bytes
  before : List HeaderField
  after : List HeaderField
  body : Body
  method_valid : method ∈ validMethods
  target_start : target.head? = some 47 ∨ target.head? = some 42
  target_line : target.all (· != SP) = true
  version_ne : version ≠ []
  version_line : version.all (fun c => c != SP && c != CR) = true

def headerLine (name value : Bytes) : Bytes := name ++ [COLON, SP] ++ value ++ crlf

def HeaderField.serialize (f : HeaderField) : Bytes := headerLine f.name f.value

def Body.header : Body → Bytes
  | .none => []
  | .sized length _ _ _ _ _ => headerLine contentLengthHeader length
  | .chunked _ => headerLine transferEncodingHeader (ascii "chunked")

def Chunk.serialize (ch : Chunk) : Bytes := ch.size ++ crlf ++ ch.data ++ crlf

def Body.serialize : Body → Bytes
  | .none => []
  | .sized _ data _ _ _ _ => data
  | .chunked chunks => chunks.flatMap Chunk.serialize ++ ascii "0" ++ crlf ++ crlf

def Request.serialize (r : Request) : Bytes :=
  r.method ++ [SP] ++ r.target ++ [SP] ++ r.version ++ crlf ++
    (r.before.flatMap HeaderField.serialize ++ r.body.header ++
      r.after.flatMap HeaderField.serialize) ++ crlf ++ r.body.serialize

def Body.content : Body → Bytes
  | .none => []
  | .sized _ data _ _ _ _ => data
  | .chunked chunks => chunks.flatMap Chunk.data

def HeaderField.call (f : HeaderField) : Callback := .onHeader (canonicalHeaderKey f.name) f.value

def Body.headerCall : Body → Log
  | .none => []
  | .sized length _ _ _ _ _ => [.onHeader contentLengthHeader length]
  | .chunked _ => [.onHeader transferEncodingHeader (ascii "chunked")]

def Body.contentLength : Body → Int
  | .sized _ data _ _ _ _ => data.length
  | _ => -1

def Body.calls : Body → Log
  | .none => []
  | .sized _ data _ _ _ _ => [.onBody data]
  | .chunked chunks => chunks.map fun ch => .onBody ch.data

def Request.calls (r : Request) : Log :=
  [.onMethod r.method, .onURL r.target, .onProto r.version] ++
    (r.before.map HeaderField.call ++ r.body.headerCall ++ r.after.map HeaderField.call) ++
    [.onContentLength r.body.contentLength] ++ r.body.calls ++ [.onComplete]

/-- The headers the parser keeps for the framing of the body. -/
def Body.framing : Body → Header
  | .none => []
  | .sized length _ _ _ _ _ => [(contentLengthHeader, [length])]
  | .chunked _ => [(transferEncodingHeader, [ascii "chunked"])]

/-! ## Runs over parts of a request -/

section Run

variable {proc : Processor} {p p' : Fields} {log log' : Log} {kept : Bytes}

theorem next_state {c : UInt8} {st : State} (rest : Bytes) (hst : p.state = st)
    (hbyte : st.isByte = true) (hpc : p.parserCloser = false) :
    (scanner proc).next ⟨p, log, kept⟩ (c :: rest) = Cfg.onByte proc ⟨p, log, kept⟩ c := by
  subst hst
  exact Cfg.next_byte hpc (Fields.bodyLen_of_isByte hbyte)

theorem run_byte {c : UInt8} {s : Start} {st : State}
    (h : onByte proc p log (some kept) c = .go p' log' s)
    (hst : p.state = st) (hbyte : st.isByte = true) (hpc : p.parserCloser = false) :
    (scanner proc).Consumes ⟨p, log, kept⟩ [c] ⟨p', log', s.kept kept c⟩ := by
  intro rest
  have hn : (scanner proc).next ⟨p, log, kept⟩ (c :: rest) =
      .step 0 ⟨p', log', s.kept kept c⟩ := by
    rw [next_state rest hst hbyte hpc, Cfg.onByte, h]
  exact (scanner proc).run_step hn

theorem run_fail {c : UInt8} {e : Err} {st : State} (rest : Bytes)
    (h : onByte proc p log (some kept) c = .fail p' log' e)
    (hst : p.state = st) (hbyte : st.isByte = true) (hpc : p.parserCloser = false) :
    (scanner proc).run ⟨p, log, kept⟩ (c :: rest) = .error ⟨p', log', some e⟩ := by
  refine (scanner proc).run_stop (cons_ne_nil _ _) ?_
  rw [next_state rest hst hbyte hpc, Cfg.onByte, h]

theorem run_keep {cs : Bytes} {st : State}
    (h : ∀ c ∈ cs, ∀ kept, onByte proc p log (some kept) c = .go p log .keep)
    (hst : p.state = st) (hbyte : st.isByte = true) (hpc : p.parserCloser = false) :
    (scanner proc).Consumes ⟨p, log, kept⟩ cs ⟨p, log, kept ++ cs⟩ := by
  induction cs generalizing kept with
  | nil =>
    rw [append_nil]
    exact (scanner proc).consumes_nil _
  | cons c cs ih =>
    have hrest : (scanner proc).Consumes ⟨p, log, kept ++ [c]⟩ cs _ :=
      ih fun c' hc' => h c' (mem_cons_of_mem c hc')
    rw [append_assoc] at hrest
    exact (run_byte (h c mem_cons_self kept) hst hbyte hpc).append hrest

theorem run_word {q : Fields} {c : UInt8} {cs : Bytes} {st st' : State}
    (hfirst : onByte proc p log (some kept) c = .go q log .here)
    (hkeep : ∀ c' ∈ cs, ∀ kept, onByte proc q log (some kept) c' = .go q log .keep)
    (hst : p.state = st) (hbyte : st.isByte = true) (hpc : p.parserCloser = false)
    (hst' : q.state = st') (hbyte' : st'.isByte = true) (hpc' : q.parserCloser = false) :
    (scanner proc).Consumes ⟨p, log, kept⟩ (c :: cs) ⟨q, log, c :: cs⟩ :=
  (run_byte hfirst hst hbyte hpc).append (run_keep hkeep hst' hbyte' hpc')

abbrev inState (state : State) : Fields := { newFields false with state := state }

/-- The fields while the header lines are read: the framing headers seen, and whether there
has been a line. -/
abbrev inHeaders (state : State) (header : Header) (seen : Bool) : Fields :=
  { newFields false with state := state, header := header, headerExists := seen }

theorem validMethods_spec : ∀ m ∈ validMethods, ∃ c cs, m = c :: cs ∧
    isValidMethodChar c = true ∧ (cs.all fun x => isAlpha x && x != SP) = true ∧
    toUpper m = m ∧ isValidMethod m = true := by
  intro m hm
  have h : ∀ m ∈ validMethods, isValidMethodChar (m.headD 0) = true ∧
      (m.tail.all fun x => isAlpha x && x != SP) = true ∧ toUpper m = m ∧
      isValidMethod m = true ∧ m ≠ [] := by decide
  obtain ⟨h1, h2, h3, h4, h5⟩ := h m hm
  obtain ⟨c, cs, rfl⟩ := exists_cons_of_ne_nil h5
  exact ⟨c, cs, rfl, h1, h2, h3, h4⟩

theorem run_method {method : Bytes} (h : method ∈ validMethods) :
    (scanner proc).Consumes ⟨inState .methodBefore, log, []⟩ (method ++ [SP])
      ⟨inState .pathBefore, log ++ [onMethod method], []⟩ := by
  obtain ⟨c, cs, rfl, hfirst, hrest, hupper, hvalid⟩ := validMethods_spec method h
  have hstart : onByte proc (inState .methodBefore) log (some []) c =
      .go (inState .method) log .here := if_pos hfirst
  have hkeep : ∀ c' ∈ cs, ∀ kept, onByte proc (inState .method) log (some kept) c' =
      .go (inState .method) log .keep := by
    intro c' hc' kept
    have hc := all_eq_true.1 hrest c' hc'
    simp only [Bool.and_eq_true, bne_iff_ne] at hc
    simp [onByte, hc.1, hc.2]
  have hend : onByte proc (inState .method) log (some (c :: cs)) SP =
      .go (inState .pathBefore) (log ++ [onMethod (c :: cs)]) .after := by
    simp [onByte, withSlice, hupper, hvalid]
  exact (run_word hstart hkeep rfl rfl rfl rfl rfl rfl).append (run_byte hend rfl rfl rfl)

theorem run_target {target : Bytes}
    (hstart : target.head? = some 47 ∨ target.head? = some 42)
    (hline : target.all (· != SP) = true) :
    (scanner .accept).Consumes ⟨inState .pathBefore, log, []⟩ (target ++ [SP])
      ⟨inState .protoBefore, log ++ [onURL target], []⟩ := by
  obtain ⟨c, cs, rfl⟩ : ∃ c cs, target = c :: cs := by
    cases target with
    | nil => rcases hstart with h | h <;> cases h
    | cons c cs => exact ⟨c, cs, rfl⟩
  have hfirst : onByte .accept (inState .pathBefore) log (some []) c =
      .go (inState .path) log .here := by
    refine if_pos (hstart.imp ?_ ?_) <;> exact fun h => Option.some.inj h
  have hkeep : ∀ c' ∈ cs, ∀ kept, onByte .accept (inState .path) log (some kept) c' =
      .go (inState .path) log .keep :=
    fun c' hc' kept => if_neg (bne_iff_ne.1 (all_eq_true.1 hline c' (mem_cons_of_mem c hc')))
  have hend : onByte .accept (inState .path) log (some (c :: cs)) SP =
      .go (inState .protoBefore) (log ++ [onURL (c :: cs)]) .after := rfl
  exact (run_word hfirst hkeep rfl rfl rfl rfl rfl rfl).append (run_byte hend rfl rfl rfl)

theorem run_version {version : Bytes} (hne : version ≠ [])
    (hline : version.all (fun c => c != SP && c != CR) = true) :
    (scanner .accept).Consumes ⟨inState .protoBefore, log, []⟩ (version ++ crlf)
      ⟨inHeaders .headerKeyBefore [] false, log ++ [onProto version], []⟩ := by
  obtain ⟨c, cs, rfl⟩ := exists_cons_of_ne_nil hne
  simp only [all_eq_true, Bool.and_eq_true, bne_iff_ne] at hline
  have hfirst : onByte .accept (inState .protoBefore) log (some []) c =
      .go (inState .proto) log .here := if_pos (hline c mem_cons_self).1
  have hkeep : ∀ c' ∈ cs, ∀ kept, onByte .accept (inState .proto) log (some kept) c' =
      .go (inState .proto) log .keep := by
    intro c' hc' kept
    obtain ⟨hsp, hcr⟩ := hline c' (mem_cons_of_mem c hc')
    exact (if_neg hsp).trans (if_neg hcr)
  have hend : onByte .accept (inState .proto) log (some (c :: cs)) CR =
      .go (inState .protoLF) (log ++ [onProto (c :: cs)]) .keep := rfl
  have hlf : onByte .accept (inState .protoLF) (log ++ [onProto (c :: cs)])
      (some (c :: cs ++ [CR])) LF =
      .go (inState .headerKeyBefore) (log ++ [onProto (c :: cs)]) .after := rfl
  refine (run_word hfirst hkeep rfl rfl rfl rfl rfl rfl).append ?_
  exact (run_byte hend rfl rfl rfl).append (run_byte hlf rfl rfl rfl)

theorem run_body {data : Bytes} (hpc : p.parserCloser = false)
    (hb : p.bodyLen = some data.length) (hne : data ≠ []) :
    (scanner .accept).Consumes ⟨p, log, []⟩ data
      ⟨(endBody .accept p (log ++ [Callback.onBody data])).1,
        (endBody .accept p (log ++ [Callback.onBody data])).2, []⟩ := by
  intro rest
  have hpos := length_pos_iff.2 hne
  have hle : 0 < (data.length : Int) ∧ (data.length : Int) ≤ (data ++ rest).length := by
    rw [length_append]
    omega
  have htake : (data ++ rest).take (data.length : Int).toNat = data := by
    rw [Int.toNat_natCast, take_left]
  have hn : (scanner .accept).next ⟨p, log, []⟩ (data ++ rest) =
      .step (data.length - 1) ⟨(endBody .accept p (log ++ [Callback.onBody data])).1,
        (endBody .accept p (log ++ [Callback.onBody data])).2, []⟩ := by
    have hbody : Cfg.onBody .accept ⟨p, log, []⟩ data.length (data ++ rest) = _ :=
      Cfg.onBody_of_le hle
    rw [htake] at hbody
    obtain ⟨c, cs, rfl⟩ := exists_cons_of_ne_nil hne
    exact (Cfg.next_body hpc hb).trans hbody
  rw [(scanner .accept).run_step hn, Nat.sub_add_cancel hpos, drop_left]

/-! ### Header lines -/

theorem run_headerName {name : Bytes} (hst : p.state = .headerKeyBefore)
    (hkey : p.headerKey = []) (hpc : p.parserCloser = false) (hne : name ≠ [])
    (htoken : name.all isToken = true) :
    (scanner proc).Consumes ⟨p, log, kept⟩ (name ++ [COLON]) ⟨{ p with
      state := .headerValueBefore, headerKey := canonicalHeaderKey name, headerExists := true },
      log, []⟩ := by
  obtain ⟨c, cs, rfl⟩ := exists_cons_of_ne_nil hne
  rw [all_eq_true] at htoken
  let q : Fields := { p with state := .headerKey, headerExists := true }
  have hfirst : onByte proc p log (some kept) c = .go q log .here := by
    obtain ⟨hsp, -, hcr, hlf⟩ := isToken_ne (htoken c mem_cons_self)
    simp [q, onByte, hst, hsp, hcr, hlf, htoken c mem_cons_self]
  have hkeep : ∀ c' ∈ cs, ∀ kept, onByte proc q log (some kept) c' = .go q log .keep := by
    intro c' hc' kept
    have ht := htoken c' (mem_cons_of_mem c hc')
    obtain ⟨hsp, hcolon, hcr, hlf⟩ := isToken_ne ht
    simp [q, onByte, hsp, hcolon, hcr, hlf, ht]
  have hend : onByte proc q log (some (c :: cs)) COLON =
      .go { q with
        state := .headerValueBefore, headerKey := canonicalHeaderKey (c :: cs) } log .after := by
    simp [q, onByte, withSlice, orSlice, hkey, show COLON ≠ SP by decide]
  exact (run_word hfirst hkeep hst rfl hpc rfl rfl hpc).append (run_byte hend rfl rfl hpc)

/-- What is reported of a value behind a colon and a space: the spaces in front of it are no part of
it, unless there is nothing else. -/
def readValue (value : Bytes) : Bytes :=
  if value.dropWhile (· == SP) = [] then SP :: value else value.dropWhile (· == SP)

theorem readValue_eq {value : Bytes} (hne : value ≠ []) (hstart : value.head? ≠ some SP) :
    readValue value = value := by
  obtain ⟨c, cs, rfl⟩ := exists_cons_of_ne_nil hne
  have hc : c ≠ SP := fun h => hstart (congrArg some h)
  simp [readValue, hc]

theorem run_valueEnd {value : Bytes} {st : State}
    (hend : onByte proc p log (some kept) CR =
      .go (p.endHeader value) (log ++ [onHeader p.headerKey value]) .after)
    (hst : p.state = st) (hbyte : st.isByte = true) (hopen : st ≠ .close)
    (hval : p.headerValue = []) (hpc : p.parserCloser = false) :
    (scanner proc).Consumes ⟨p, log, kept⟩ crlf ⟨{ p with
      state := .headerKeyBefore, headerKey := []
      header := if Fields.isFramingKey p.headerKey then p.header.add p.headerKey value
        else p.header },
      log ++ [onHeader p.headerKey value], []⟩ := by
  let q : Fields := { p with
    state := .headerValueLF, headerKey := []
    header := if Fields.isFramingKey p.headerKey then p.header.add p.headerKey value
      else p.header }
  have hq : p.endHeader value = q := by
    rw [Fields.endHeader, Fields.nextState_of_ne (hst ▸ hopen)]
    simp only [q, hval]
  have hlf : onByte proc q (log ++ [onHeader p.headerKey value]) (some []) LF =
      .go { q with state := .headerKeyBefore } (log ++ [onHeader p.headerKey value]) .after := rfl
  rw [hq] at hend
  exact (run_byte hend hst hbyte hpc).append (run_byte hlf rfl rfl hpc)

theorem run_headerValue {value : Bytes} (hst : p.state = .headerValueBefore)
    (hval : p.headerValue = []) (hpc : p.parserCloser = false)
    (hline : value.all (fun c => c != CR && c != LF) = true) :
    (scanner proc).Consumes ⟨p, log, []⟩ (SP :: value ++ crlf) ⟨{ p with
      state := .headerKeyBefore, headerKey := []
      header := if Fields.isFramingKey p.headerKey then p.header.add p.headerKey (readValue value)
        else p.header },
      log ++ [onHeader p.headerKey (readValue value)], []⟩ := by
  simp only [all_eq_true, Bool.and_eq_true, bne_iff_ne] at hline
  let spaces := value.takeWhile (· == SP)
  have hspaces : ∀ c ∈ SP :: spaces, ∀ kept, onByte proc p log (some kept) c = .go p log .keep := by
    intro c hc kept
    have hsp : c = SP := by
      rcases mem_cons.1 hc with rfl | hc
      · rfl
      · simpa using mem_takeWhile_imp hc
    simp only [onByte, hst, hsp, if_true]
  have hsplit : SP :: value = SP :: spaces ++ value.dropWhile (· == SP) :=
    congrArg (SP :: ·) takeWhile_append_dropWhile.symm
  rw [hsplit, append_assoc]
  refine (run_keep hspaces hst rfl hpc).append ?_
  rw [readValue, nil_append]
  cases hdrop : value.dropWhile (· == SP) with
  | nil =>
    have hall : spaces = value := by
      have := takeWhile_append_dropWhile (p := (· == SP)) (l := value)
      rwa [hdrop, append_nil] at this
    rw [if_pos rfl, nil_append, hall]
    refine run_valueEnd ?_ hst rfl (by decide) hval hpc
    simp [onByte, hst, withSlice, orSlice, hval, show CR ≠ SP by decide]
  | cons c cs =>
    have hmem : ∀ x ∈ c :: cs, x ≠ CR ∧ x ≠ LF := fun x hx =>
      hline x ((dropWhile_suffix _).subset (hdrop ▸ hx))
    have hsp : c ≠ SP := by
      have := head?_dropWhile_not (· == SP) value
      rw [hdrop] at this
      simpa using this
    let q : Fields := { p with state := .headerValue }
    have hfirst : onByte proc p log (some (SP :: spaces)) c = .go q log .here := by
      obtain ⟨hcr, hlf⟩ := hmem c mem_cons_self
      simp [q, onByte, hst, hsp, hcr, hlf]
    have hkeep : ∀ c' ∈ cs, ∀ kept, onByte proc q log (some kept) c' = .go q log .keep := by
      intro c' hc' kept
      obtain ⟨hcr, hlf⟩ := hmem c' (mem_cons_of_mem c hc')
      exact (if_neg hcr).trans (if_neg hlf)
    rw [if_neg (cons_ne_nil _ _)]
    refine (run_word hfirst hkeep hst rfl hpc rfl rfl hpc).append ?_
    refine run_valueEnd (p := q) ?_ rfl rfl State.noConfusion hval hpc
    simp [q, onByte, withSlice, orSlice, hval]

/-- The parser is in a state, with no header half read. -/
structure Fields.At (p : Fields) (st : State) : Prop where
  state : p.state = st
  key : p.headerKey = []
  value : p.headerValue = []
  closer : p.parserCloser = false

theorem run_headerLine {name value : Bytes} (hp : p.At .headerKeyBefore)
    (hname : name ≠ []) (htoken : name.all isToken = true)
    (hline : value.all (fun c => c != CR && c != LF) = true) :
    (scanner proc).Consumes ⟨p, log, kept⟩ (headerLine name value) ⟨{ p with
      headerExists := true
      header := if Fields.isFramingKey (canonicalHeaderKey name) then
        p.header.add (canonicalHeaderKey name) (readValue value) else p.header },
      log ++ [onHeader (canonicalHeaderKey name) (readValue value)], []⟩ := by
  have hsplit : headerLine name value = name ++ [COLON] ++ (SP :: value ++ crlf) := by
    simp [headerLine]
  let q : Fields := { p with
    state := .headerValueBefore, headerKey := canonicalHeaderKey name, headerExists := true }
  rw [hsplit, hp.state, hp.key]
  exact (run_headerName hp.state hp.key hp.closer hname htoken).append
    (run_headerValue (p := q) rfl hp.value hp.closer hline)

theorem run_headerFields (proc : Processor) (log : Log) (kept : Bytes)
    (fields : List HeaderField) (hp : p.At .headerKeyBefore) :
    ∃ b kept', (scanner proc).Consumes ⟨p, log, kept⟩ (fields.flatMap HeaderField.serialize)
      ⟨{ p with headerExists := b }, log ++ fields.map HeaderField.call, kept'⟩ := by
  induction fields generalizing log p kept with
  | nil =>
    refine ⟨p.headerExists, kept, ?_⟩
    rw [map_nil, append_nil]
    exact (scanner proc).consumes_nil _
  | cons f fields ih =>
    have hline : (scanner proc).Consumes ⟨p, log, kept⟩ f.serialize _ :=
      run_headerLine hp f.name_ne f.name_token f.value_line
    rw [readValue_eq f.value_ne f.value_start, f.not_framing] at hline
    obtain ⟨b, kept', h⟩ := ih (p := { p with headerExists := true }) (log ++ [f.call]) []
      ⟨hp.state, hp.key, hp.value, hp.closer⟩
    rw [append_assoc] at h
    exact ⟨b, kept', hline.append h⟩

theorem isNum_ne {c : UInt8} (h : isNum c = true) : c ≠ CR ∧ c ≠ LF ∧ c ≠ SP := by
  refine ⟨?_, ?_, ?_⟩ <;> rintro rfl <;> cases h

theorem Body.length_ne {length data : Bytes} (hne : data ≠ [])
    (hval : digitsVal 10 0 length = data.length) : length ≠ [] := by
  rintro rfl
  exact hne (length_eq_zero_iff.1 hval.symm)

theorem run_bodyHeader (proc : Processor) (log : Log) (kept : Bytes) (body : Body)
    (hp : p.At .headerKeyBefore)
    (hheader : p.header = []) :
    ∃ b kept', (scanner proc).Consumes ⟨p, log, kept⟩ body.header
      ⟨{ p with header := body.framing, headerExists := b }, log ++ body.headerCall, kept'⟩ := by
  cases body with
  | none =>
    refine ⟨p.headerExists, kept, ?_⟩
    rw [Body.header, Body.headerCall, Body.framing, append_nil, ← hheader]
    exact (scanner proc).consumes_nil _
  | sized length data hne hlt hdigits hlen =>
    have hcanon : canonicalHeaderKey contentLengthHeader = contentLengthHeader := by decide +kernel
    have hframing : Fields.isFramingKey contentLengthHeader = true := by decide +kernel
    have hnum := all_eq_true.1 hdigits
    have hvalue : readValue length = length := readValue_eq (Body.length_ne hne hlen) fun hsp =>
      (isNum_ne (hnum SP (mem_of_mem_head? hsp))).2.2 rfl
    have hline : length.all (fun c => c != CR && c != LF) = true := by
      simp only [all_eq_true, Bool.and_eq_true, bne_iff_ne]
      exact fun c hc => ⟨(isNum_ne (hnum c hc)).1, (isNum_ne (hnum c hc)).2.1⟩
    have hrun : (scanner proc).Consumes ⟨p, log, kept⟩ (headerLine contentLengthHeader length) _ :=
      run_headerLine hp (by decide) (by decide +kernel) hline
    rw [hvalue, hcanon, if_pos hframing, hheader] at hrun
    exact ⟨true, [], hrun⟩
  | chunked chunks =>
    have hcanon : canonicalHeaderKey transferEncodingHeader = transferEncodingHeader := by
      decide +kernel
    have hframing : Fields.isFramingKey transferEncodingHeader = true := by decide +kernel
    have hvalue : readValue (ascii "chunked") = ascii "chunked" := by decide +kernel
    have hrun : (scanner proc).Consumes ⟨p, log, kept⟩
        (headerLine transferEncodingHeader (ascii "chunked")) _ :=
      run_headerLine hp (by decide) (by decide +kernel) (by decide +kernel)
    rw [hvalue, hcanon, if_pos hframing, hheader] at hrun
    exact ⟨true, [], hrun⟩

theorem run_headers (proc : Processor) (log : Log) (kept : Bytes) (before : List HeaderField)
    (body : Body) (after : List HeaderField) (hp : p.At .headerKeyBefore)
    (hheader : p.header = []) :
    ∃ b kept', (scanner proc).Consumes ⟨p, log, kept⟩ (before.flatMap HeaderField.serialize ++
        (body.header ++ after.flatMap HeaderField.serialize))
      ⟨{ p with header := body.framing, headerExists := b },
        log ++ (before.map HeaderField.call ++ body.headerCall ++ after.map HeaderField.call),
        kept'⟩ := by
  obtain ⟨b₁, kept₁, h₁⟩ := run_headerFields proc log kept before hp
  obtain ⟨b₂, kept₂, h₂⟩ := run_bodyHeader (p := { p with headerExists := b₁ }) proc
    (log ++ before.map HeaderField.call) kept₁ body ⟨hp.state, hp.key, hp.value, hp.closer⟩ hheader
  obtain ⟨b₃, kept₃, h₃⟩ := run_headerFields
    (p := { p with header := body.framing, headerExists := b₂ }) proc
    (log ++ before.map HeaderField.call ++ body.headerCall) kept₂ after
    ⟨hp.state, hp.key, hp.value, hp.closer⟩
  rw [append_assoc] at h₂
  rw [append_assoc, append_assoc] at h₃
  exact ⟨b₃, kept₃, h₁.append (h₂.append h₃)⟩

/-! ### The blank line and the body -/

abbrev inBody (state : State) (header : Header) (chunked : Bool) (contentLength chunkSize : Int) :
    Fields :=
  { newFields false with
    state := state, header := header, chunked := chunked, contentLength := contentLength
    chunkSize := chunkSize }

abbrev completed (contentLength chunkSize : Int) : Fields :=
  inBody .methodBefore [] false contentLength chunkSize

/-- A run that has decoded a request and waits for the next. -/
def Decoded (log : Log) (o : Except Stop (Cfg × Bytes)) : Prop :=
  ∃ l n, o = .ok (⟨completed l n, log, []⟩, [])

def Fields.ended (p : Fields) : Fields :=
  { p with
    state := startState p.isClient, parserCloser := false, chunked := false, header := []
    trailer := [] }

theorem endMessage_accept (hst : p.state ≠ .close) (hpc : p.parserCloser = false) :
    endMessage .accept p log = (p.ended, log ++ [onComplete]) := by
  simp [endMessage, Fields.handleMessage, Fields.nextState, Fields.ended, Processor.accept, hpc]

theorem onByte_blank {tok : Option Bytes} (hst : p.state = .headerKeyBefore) :
    onByte proc p log tok CR = endHeaders p log := by
  simp only [onByte, hst]
  rfl

theorem run_blank_none (hst : p.state = .headerKeyBefore) (hpc : p.parserCloser = false)
    (hheader : p.header = []) (hchunked : p.chunked = false) :
    (scanner .accept).Consumes ⟨p, log, kept⟩ crlf
      ⟨{ p with contentLength := -1, headerExists := false }.ended,
        log ++ ([onContentLength (-1)] ++ [.onComplete]), []⟩ := by
  let q : Fields := { p with state := .headerOverLF, contentLength := -1 }
  have hcr : onByte .accept p log (some kept) CR =
      .go q (log ++ [onContentLength (-1)]) .after := by
    simp [q, onByte_blank hst, endHeaders, Fields.parseTransferEncoding, Fields.parseContentLength,
      Fields.parseTrailer, Header.lookup, Header.get, hst, hheader]
  have hlf : onByte .accept q (log ++ [onContentLength (-1)]) (some []) LF =
      .go { q with headerExists := false }.ended
        (log ++ ([onContentLength (-1)] ++ [onComplete])) .after := by
    simp [q, onByte, hchunked, hpc, endMessage_accept]
  exact (run_byte hcr hst rfl hpc).append (run_byte hlf rfl rfl hpc)

theorem cutSpaces_digits {text : Bytes} (hne : text ≠ []) (h : text.all isNum = true) :
    Fields.cutSpaces text = text := by
  rw [all_eq_true] at h
  have hall : ¬ text.all (· == 32) = true := by
    obtain ⟨c, cs, rfl⟩ := exists_cons_of_ne_nil hne
    have := (isNum_ne (h c mem_cons_self)).2.2
    simp [this]
  rw [Fields.cutSpaces, if_neg hall]
  refine rdropWhile_eq_self_iff.2 fun hl => ?_
  have := (isNum_ne (h _ (getLast_mem hl))).2.2
  simpa using this

theorem endHeaders_sized {length data : Bytes} (hst : p.state = .headerKeyBefore)
    (hheader : p.header = [(contentLengthHeader, [length])]) (hchunked : p.chunked = false)
    (hne : data ≠ []) (hlt : data.length < 2 ^ 62) (hdigits : length.all isNum = true)
    (hval : digitsVal 10 0 length = data.length) :
    endHeaders p log = .go { p with state := .headerOverLF, contentLength := data.length }
      (log ++ [onContentLength data.length]) .after := by
  have hne' := Body.length_ne hne hval
  have hparse : parseInt length 10 63 = .ok (data.length : Int) := by
    rw [parseInt_digits (by decide) hne'
      (fun c hc => isNum_digit (all_eq_true.1 hdigits c hc)) (by decide), hval]
    rw [hval]
    exact hlt
  have hget : p.header.get contentLengthHeader = length := by
    simp [hheader, Header.get, Header.lookup]
  have hte : p.parseTransferEncoding = (p, none) := by
    rw [Fields.parseTransferEncoding, hheader]
    rfl
  have hcl : p.parseContentLength = ({ p with contentLength := data.length }, none) := by
    simp [Fields.parseContentLength, hget, hne', hchunked, cutSpaces_digits hne' hdigits, hparse]
  simp [endHeaders, hte, hcl, Fields.parseTrailer, hchunked, hst]

theorem run_blank_sized {length data : Bytes} (hst : p.state = .headerKeyBefore)
    (hpc : p.parserCloser = false) (hheader : p.header = [(contentLengthHeader, [length])])
    (hchunked : p.chunked = false) (hne : data ≠ []) (hlt : data.length < 2 ^ 62)
    (hdigits : length.all isNum = true) (hval : digitsVal 10 0 length = data.length) :
    (scanner .accept).Consumes ⟨p, log, kept⟩ (crlf ++ data)
      ⟨{ p with contentLength := data.length, headerExists := false }.ended,
        log ++ [onContentLength data.length] ++ [.onBody data] ++ [.onComplete], []⟩ := by
  let q : Fields := { p with state := .headerOverLF, contentLength := data.length }
  let q' : Fields := { q with state := .bodyContentLength, headerExists := false }
  have hcr : onByte .accept p log (some kept) CR =
      .go q (log ++ [onContentLength data.length]) .after :=
    (onByte_blank hst).trans (endHeaders_sized hst hheader hchunked hne hlt hdigits hval)
  have hlf : onByte .accept q (log ++ [onContentLength data.length]) (some []) LF =
      .go q' (log ++ [onContentLength data.length]) .after := by
    simp [q, q', onByte, hchunked, hne]
  have hbody : (scanner .accept).Consumes ⟨q', log ++ [onContentLength data.length], []⟩ data _ :=
    run_body hpc rfl hne
  rw [endBody, endMessage_accept (p := q') nofun hpc] at hbody
  exact ((run_byte hcr hst rfl hpc).append (run_byte hlf rfl rfl hpc)).append hbody

abbrev inChunks (state : State) (chunkSize : Int) : Fields := inBody state [] true (-1) chunkSize

theorem run_blank_chunked (hst : p.state = .headerKeyBefore) (hpc : p.parserCloser = false)
    (hheader : p.header = [(transferEncodingHeader, [ascii "chunked"])]) :
    (scanner .accept).Consumes ⟨p, log, kept⟩ crlf ⟨{ p with
      state := .bodyChunkSizeBefore, header := [], chunked := true, contentLength := -1
      headerExists := false }, log ++ [onContentLength (-1)], []⟩ := by
  let q : Fields := { p with
    state := .headerOverLF, header := [], chunked := true, contentLength := -1 }
  have hcr : onByte .accept p log (some kept) CR =
      .go q (log ++ [onContentLength (-1)]) .after := by
    rw [onByte_blank hst, endHeaders, Fields.parseTransferEncoding, hheader]
    simp only [hst]
    rfl
  have hlf : onByte .accept q (log ++ [onContentLength (-1)]) (some []) LF =
      .go { q with state := .bodyChunkSizeBefore, headerExists := false }
        (log ++ [onContentLength (-1)]) .after := rfl
  exact (run_byte hcr hst rfl hpc).append (run_byte hlf rfl rfl hpc)

theorem isHex_digit {c : UInt8} (h : isHex c = true) : ∃ d, digitVal c = some d ∧ d < 16 := by
  simp only [isHex, isNum, Bool.or_eq_true, Bool.and_eq_true, decide_eq_true_eq,
    UInt8.le_iff_toNat_le, UInt8.reduceToNat] at h
  simp only [digitVal, isLower, isUpper, Bool.and_eq_true, decide_eq_true_eq,
    UInt8.le_iff_toNat_le, UInt8.reduceToNat]
  split_ifs
  · exact ⟨_, rfl, by omega⟩
  · exact ⟨_, rfl, by omega⟩
  · exact ⟨_, rfl, by omega⟩
  · omega

theorem isHex_ne {c : UInt8} (h : isHex c = true) : c ≠ CR ∧ c ≠ SP := by
  refine ⟨?_, ?_⟩ <;> rintro rfl <;> exact absurd h (by decide)

theorem Chunk.size_ne (ch : Chunk) : ch.size ≠ [] := by
  intro h
  have hval := ch.size_val
  rw [h] at hval
  exact ch.data_ne (length_eq_zero_iff.1 hval.symm)

theorem parseAndValidateChunkSize_digits {size : Bytes} {n : Nat} (hne : size ≠ [])
    (hdigits : size.all isHex = true) (hval : digitsVal 16 0 size = n) (hlt : n < 2 ^ 62) :
    parseAndValidateChunkSize size = .ok n := by
  have hparse : parseInt size 16 63 = .ok (n : Int) := by
    rw [parseInt_digits (by decide) hne
      (fun c hc => isHex_digit (all_eq_true.1 hdigits c hc)) (by decide), hval]
    rw [hval]
    exact hlt
  have hpos : ¬ ((n : Int) < 0) := by omega
  rw [parseAndValidateChunkSize, hparse]
  exact if_neg hpos

theorem parseAndValidateChunkSize_huge {size : Bytes} (hdigits : size.all isHex = true)
    (hle : 2 ^ 62 ≤ digitsVal 16 0 size) : ∃ e, parseAndValidateChunkSize size = .error e := by
  have hs : IsDigits 16 size := fun c hc => isHex_digit (all_eq_true.1 hdigits c hc)
  obtain ⟨e, he⟩ : ∃ e, parseInt size 16 63 = .error e := parseInt_error_of_digits hs hle
  exact ⟨.chunkSizeParse size e, by rw [parseAndValidateChunkSize, he]⟩

/-! The chunks are read by a parser that has not been upgraded. -/

section Chunks

variable (hst : p.state = .bodyChunkSizeBefore) (hpc : p.parserCloser = false)

include hst hpc

theorem run_chunkSize {size : Bytes} (hne : size ≠ []) (hdigits : size.all isHex = true) :
    (scanner proc).Consumes ⟨p, log, kept⟩ size
      ⟨{ p with state := .bodyChunkSize, chunkSize := -1 }, log, size⟩ := by
  obtain ⟨c, cs, rfl⟩ := exists_cons_of_ne_nil hne
  rw [all_eq_true] at hdigits
  let q : Fields := { p with state := .bodyChunkSize, chunkSize := -1 }
  have hfirst : onByte proc p log (some kept) c = .go q log .here := by
    simp only [q, onByte, hst, if_pos (hdigits c mem_cons_self), Fields.nextState]
  have hkeep : ∀ c' ∈ cs, ∀ kept, onByte proc q log (some kept) c' = .go q log .keep := by
    intro c' hc' kept
    have hhex := hdigits c' (mem_cons_of_mem c hc')
    obtain ⟨hcr, hsp⟩ := isHex_ne hhex
    simp [q, onByte, hcr, hsp, hhex]
  exact run_word hfirst hkeep hst rfl hpc rfl rfl hpc

theorem run_chunkSize_refused {size : Bytes} {e : Err} (rest : Bytes) (hne : size ≠ [])
    (hdigits : size.all isHex = true) (h : parseAndValidateChunkSize size = .error e) :
    (scanner proc).run ⟨p, log, kept⟩ (size ++ CR :: rest) =
      .error ⟨{ p with state := .bodyChunkSize, chunkSize := -1 }, log, some e⟩ := by
  let q : Fields := { p with state := .bodyChunkSize, chunkSize := -1 }
  have hcr : onByte proc q log (some size) CR = .fail q log e := by
    simp [q, onByte, withChunkSize, withSlice, h]
  rw [run_chunkSize hst hpc hne hdigits]
  exact run_fail rest hcr rfl rfl hpc

theorem run_chunk {ch : Chunk} (hlt : ch.data.length < 2 ^ 62) :
    (scanner .accept).Consumes ⟨p, log, kept⟩ ch.serialize
      ⟨{ p with chunkSize := ch.data.length }, log ++ [Callback.onBody ch.data], crlf⟩ := by
  have hsize := parseAndValidateChunkSize_digits ch.size_ne ch.size_digits ch.size_val hlt
  have hpos : 0 < (ch.data.length : Int) := by
    have := length_pos_iff.2 ch.data_ne
    omega
  have hsplit : ch.serialize = ch.size ++ (crlf ++ (ch.data ++ crlf)) := by
    simp [Chunk.serialize]
  let q (state : State) : Fields := { p with state := state, chunkSize := ch.data.length }
  let log' : Log := log ++ [Callback.onBody ch.data]
  have hcr : onByte .accept { p with state := .bodyChunkSize, chunkSize := -1 } log (some ch.size)
      CR = .go (q .bodyChunkSizeLF) log .after := by
    simp [q, onByte, withChunkSize, withSlice, hsize, show CR ≠ SP by decide]
  have hlf : onByte .accept (q .bodyChunkSizeLF) log (some []) LF =
      .go (q .bodyChunkData) log .after := if_pos hpos
  have hdata : (scanner .accept).Consumes ⟨q .bodyChunkData, log, []⟩ ch.data
      ⟨q .bodyChunkDataCR, log', []⟩ := run_body hpc rfl ch.data_ne
  have hcr' : onByte .accept (q .bodyChunkDataCR) log' (some []) CR =
      .go (q .bodyChunkDataLF) log' .keep := rfl
  have hlf' : onByte .accept (q .bodyChunkDataLF) log' (some [CR]) LF =
      .go (q .bodyChunkSizeBefore) log' .keep := rfl
  have hend : (scanner .accept).Consumes ⟨q .bodyChunkDataCR, log', []⟩ crlf
      ⟨q .bodyChunkSizeBefore, log', crlf⟩ :=
    (run_byte hcr' rfl rfl hpc).append (run_byte hlf' rfl rfl hpc)
  rw [hsplit, ← show q .bodyChunkSizeBefore = { p with chunkSize := ch.data.length } by
    simp only [q, hst]]
  refine (run_chunkSize hst hpc ch.size_ne ch.size_digits).append ?_
  exact ((run_byte hcr rfl rfl hpc).append (run_byte hlf rfl rfl hpc)).append (hdata.append hend)

theorem run_chunks {chunks : List Chunk} (log : Log) (kept : Bytes)
    (hlt : ∀ ch ∈ chunks, ch.data.length < 2 ^ 62) :
    ∃ m kept', (scanner .accept).Consumes ⟨p, log, kept⟩ (chunks.flatMap Chunk.serialize)
      ⟨{ p with chunkSize := m }, log ++ chunks.map fun ch => Callback.onBody ch.data, kept'⟩ := by
  induction chunks generalizing log p kept with
  | nil =>
    refine ⟨p.chunkSize, kept, ?_⟩
    rw [map_nil, append_nil]
    exact (scanner .accept).consumes_nil _
  | cons ch chunks ih =>
    obtain ⟨m, kept', h⟩ := ih (p := { p with chunkSize := ch.data.length }) hst hpc
      (log ++ [Callback.onBody ch.data]) crlf fun ch' hch' => hlt ch' (mem_cons_of_mem ch hch')
    rw [append_assoc] at h
    exact ⟨m, kept', (run_chunk hst hpc (hlt ch mem_cons_self)).append h⟩

theorem run_chunks_refused {chunks : List Chunk} (log : Log) (kept rest : Bytes)
    (hle : ¬ ∀ ch ∈ chunks, ch.data.length < 2 ^ 62) :
    ∃ e bodies, (scanner .accept).run ⟨p, log, kept⟩ (chunks.flatMap Chunk.serialize ++ rest) =
      .error e ∧ e.log = log ++ map Callback.onBody bodies := by
  induction chunks generalizing log p kept with
  | nil => exact absurd (fun _ h => nomatch h) hle
  | cons ch chunks ih =>
    rw [flatMap_cons, append_assoc]
    by_cases hlt : ch.data.length < 2 ^ 62
    · rw [forall_mem_cons, not_and] at hle
      obtain ⟨e, bodies, hrun, hlog⟩ := ih (p := { p with chunkSize := ch.data.length }) hst hpc
        (log ++ [Callback.onBody ch.data]) crlf (hle hlt)
      refine ⟨e, ch.data :: bodies, ?_, ?_⟩
      · rw [run_chunk hst hpc hlt, hrun]
      · rw [hlog, map_cons, append_assoc, singleton_append]
    · obtain ⟨e, he⟩ := parseAndValidateChunkSize_huge ch.size_digits
        (by rw [ch.size_val]; exact Nat.le_of_not_lt hlt)
      have hsplit : ∀ rest, ch.serialize ++ rest =
          ch.size ++ CR :: LF :: (ch.data ++ (crlf ++ rest)) := by
        simp [Chunk.serialize]
      rw [hsplit, run_chunkSize_refused hst hpc _ ch.size_ne ch.size_digits he]
      exact ⟨_, [], rfl, (append_nil _).symm⟩

theorem run_zeroChunk (log : Log) (kept : Bytes) :
    (scanner .accept).Consumes ⟨p, log, kept⟩ (ascii "0" ++ crlf) ⟨{ p with
      chunkSize := 0
      state := if p.trailer ≠ [] then .bodyTrailerHeaderKeyBefore else .tailCR }, log, []⟩ := by
  let q : Fields := { p with chunkSize := 0, state := .bodyChunkSizeLF }
  have hcr : onByte .accept { p with state := .bodyChunkSize, chunkSize := -1 } log
      (some (ascii "0")) CR = .go q log .after := rfl
  have hlf : onByte .accept q log (some []) LF =
      .go { q with state := if p.trailer ≠ [] then .bodyTrailerHeaderKeyBefore else .tailCR } log
        .after := by
    cases htrailer : p.trailer <;> simp [q, onByte, htrailer]
  refine (run_chunkSize hst hpc (by decide) (by decide)).append ?_
  exact (run_byte hcr rfl rfl hpc).append (run_byte hlf rfl rfl hpc)

theorem run_lastChunk (log : Log) (kept : Bytes) (htrailer : p.trailer = []) :
    (scanner .accept).Consumes ⟨p, log, kept⟩ (ascii "0" ++ crlf ++ crlf)
      ⟨{ p with chunkSize := 0 }.ended, log ++ [onComplete], []⟩ := by
  let q : Fields := { p with chunkSize := 0, state := .tailCR }
  have hcr : onByte .accept q log (some []) CR = .go { q with state := .tailLF } log .keep := rfl
  have hlf : onByte .accept { q with state := .tailLF } log (some [CR]) LF =
      .go q.ended (log ++ [onComplete]) .after := by
    simp only [onByte, endMessage_accept (p := { q with state := .tailLF }) nofun hpc]
    rfl
  have hzero := run_zeroChunk hst hpc log kept
  rw [if_neg fun h => h htrailer] at hzero
  exact hzero.append ((run_byte hcr rfl rfl hpc).append (run_byte hlf rfl rfl hpc))

end Chunks

end Run

def Body.Sized : Body → Prop
  | .chunked chunks => ∀ ch ∈ chunks, ch.data.length < 2 ^ 62
  | _ => True

theorem run_bodyOf (p : Fields) (log : Log) (kept : Bytes) (body : Body) (h : body.Sized)
    (hst : p.state = .headerKeyBefore) (hpc : p.parserCloser = false)
    (hheader : p.header = body.framing) (hchunked : p.chunked = false) (htrailer : p.trailer = []) :
    ∃ l n, (scanner .accept).Consumes ⟨p, log, kept⟩ (crlf ++ body.serialize)
      ⟨{ p with contentLength := l, chunkSize := n, headerExists := false }.ended,
        log ++ [onContentLength body.contentLength] ++ body.calls ++ [onComplete], []⟩ := by
  cases body with
  | none =>
    refine ⟨-1, p.chunkSize, ?_⟩
    rw [Body.calls, append_nil, append_assoc]
    exact run_blank_none hst hpc hheader hchunked
  | sized length data hne hlt hdigits hval =>
    exact ⟨data.length, p.chunkSize, run_blank_sized hst hpc hheader hchunked hne hlt hdigits hval⟩
  | chunked chunks =>
    let q : Fields := { p with
      state := .bodyChunkSizeBefore, header := [], chunked := true, contentLength := -1
      headerExists := false }
    obtain ⟨m, kept', hrun⟩ := run_chunks (p := q) rfl hpc (log ++ [onContentLength (-1)]) [] h
    refine ⟨-1, 0, (run_blank_chunked hst hpc hheader).append ?_⟩
    rw [Body.serialize, append_assoc, append_assoc, ← append_assoc (ascii "0")]
    exact hrun.append (run_lastChunk (p := { q with chunkSize := m }) rfl hpc _ kept' htrailer)

def Request.headCalls (r : Request) : Log :=
  [.onMethod r.method, .onURL r.target, .onProto r.version] ++
    (r.before.map HeaderField.call ++ r.body.headerCall ++ r.after.map HeaderField.call)

theorem run_head (r : Request) :
    ∃ b kept, (scanner .accept).run ⟨inState .methodBefore, [], []⟩ r.serialize =
      (scanner .accept).run ⟨inHeaders .headerKeyBefore r.body.framing b, r.headCalls, kept⟩
        (crlf ++ r.body.serialize) := by
  have hsplit : r.serialize = r.method ++ [SP] ++ (r.target ++ [SP] ++ (r.version ++ crlf ++
      (r.before.flatMap HeaderField.serialize ++ (r.body.header ++
        r.after.flatMap HeaderField.serialize) ++ (crlf ++ r.body.serialize)))) := by
    simp [Request.serialize]
  obtain ⟨b, kept, hrun⟩ := run_headers (p := inHeaders .headerKeyBefore [] false) .accept
    [.onMethod r.method, .onURL r.target, .onProto r.version] [] r.before r.body r.after
    ⟨rfl, rfl, rfl, rfl⟩ rfl
  refine ⟨b, kept, ?_⟩
  rw [hsplit, run_method r.method_valid, run_target r.target_start r.target_line,
    run_version r.version_ne r.version_line]
  exact hrun _

theorem accept_neverUpgrades : Processor.accept.NeverUpgrades := fun _ => rfl

theorem cfg_newParser (isClient : Bool) :
    (newParser isClient).cfg [] = (⟨newFields isClient, [], []⟩, []) := by
  cases isClient <;> rfl

def bodyData (log : Log) : List Bytes :=
  log.filterMap fun cb => match cb with
    | .onBody data => some data
    | _ => none

theorem bodyData_calls (r : Request) : (bodyData r.calls).flatten = r.body.content := by
  have hfields : ∀ fs : List HeaderField, bodyData (fs.map HeaderField.call) = [] := by
    simp [bodyData, HeaderField.call]
  have happ : ∀ l l' : Log, bodyData (l ++ l') = bodyData l ++ bodyData l' :=
    fun l l' => filterMap_append
  rw [Request.calls]
  simp only [happ, hfields]
  cases r.body with
  | none => rfl
  | sized length data hne hlt hdigits hval =>
    simp [bodyData, Body.headerCall, Body.calls, Body.content]
  | chunked chunks =>
    simp [bodyData, Body.headerCall, Body.calls, Body.content, flatMap]

/-- The server's parser decodes a canonical request whose chunks, if any, are shorter than
`2 ^ 62` bytes, and then waits for the next one. -/
theorem parse_serialize (r : Request) (readLimit : Int) (h : r.body.Sized) :
    let res := (newParser false).parse .accept readLimit [] r.serialize
    res.err = none ∧ res.log = r.calls ∧ (bodyData res.log).flatten = r.body.content ∧
      res.parser.state = .methodBefore ∧ res.parser.bytesCached = none := by
  have hm := newParser_parse_matches accept_neverUpgrades false readLimit r.serialize
  obtain ⟨b, kept, hhead⟩ := run_head r
  obtain ⟨l, n, hbody⟩ : Decoded (r.headCalls ++ [Callback.onContentLength r.body.contentLength] ++
      r.body.calls ++ [Callback.onComplete]) ((scanner .accept).run
        ⟨inHeaders .headerKeyBefore r.body.framing b, r.headCalls, kept⟩
          (crlf ++ r.body.serialize)) := by
    obtain ⟨l, n, hbody⟩ := run_bodyOf (inHeaders .headerKeyBefore r.body.framing b) r.headCalls
      kept r.body h rfl rfl rfl rfl rfl
    exact ⟨l, n, hbody.run⟩
  have hrun := hm.ok _ _ (hhead.trans hbody)
  have hcalls : r.headCalls ++ [Callback.onContentLength r.body.contentLength] ++ r.body.calls ++
      [Callback.onComplete] = r.calls := by
    simp [Request.headCalls, Request.calls]
  rw [hrun]
  refine ⟨rfl, hcalls, ?_, rfl, rfl⟩
  rw [← bodyData_calls, ← hcalls]

/-- A request with two chunks, whose sizes are written in different ways. -/
def exampleRequest : Request where
  method := ascii "POST"
  target := ascii "/echo"
  version := ascii "HTTP/1.1"
  before := [⟨ascii "host", ascii "localhost:8080", by decide, by decide, by decide, by decide,
    by decide, by decide⟩]
  after := []
  body := .chunked [⟨ascii "4", ascii "body", by decide, by decide, by decide⟩,
    ⟨ascii "0A", ascii "0123456789", by decide, by decide, by decide⟩]
  method_valid := by decide
  target_start := by decide
  target_line := by decide
  version_ne := by decide
  version_line := by decide

theorem parse_serialize_exampleRequest :
    ((newParser false).parse .accept 0 [] exampleRequest.serialize).log =
      [.onMethod (ascii "POST"), .onURL (ascii "/echo"), .onProto (ascii "HTTP/1.1"),
        .onHeader (ascii "Host") (ascii "localhost:8080"),
        .onHeader (ascii "Transfer-Encoding") (ascii "chunked"), .onContentLength (-1),
        .onBody (ascii "body"), .onBody (ascii "0123456789"), .onComplete] := by
  have hsized : exampleRequest.body.Sized := by
    intro ch hch
    simp only [mem_cons, not_mem_nil, or_false] at hch
    rcases hch with rfl | rfl <;> decide
  exact (parse_serialize exampleRequest 0 hsized).2.1

/-- A request with one chunk of `2 ^ 62` bytes. -/
def hugeRequest (data : Bytes) (h : data.length = 2 ^ 62) : Request where
  method := ascii "POST"
  target := ascii "/"
  version := ascii "HTTP/1.1"
  before := []
  after := []
  body := .chunked [⟨ascii "4000000000000000", data,
    fun hnil => by rw [hnil] at h; exact absurd h (by decide), by decide, h.symm⟩]
  method_valid := by decide
  target_start := by decide
  target_line := by decide
  version_ne := by decide
  version_line := by decide

theorem parse_huge (data : Bytes) (h : data.length = 2 ^ 62) :
    ((newParser false).parse .accept 0 [] (hugeRequest data h).serialize).err =
      some (.chunkSizeParse (ascii "4000000000000000") .range) := by
  have hm := newParser_parse_matches accept_neverUpgrades false 0 (hugeRequest data h).serialize
  obtain ⟨b, kept, hhead⟩ := run_head (hugeRequest data h)
  obtain ⟨rest, hrest⟩ : ∃ rest, (hugeRequest data h).body.serialize =
      ascii "4000000000000000" ++ CR :: rest := by
    refine ⟨LF :: (data ++ crlf ++ (ascii "0" ++ crlf ++ crlf)), ?_⟩
    simp [hugeRequest, Body.serialize, Chunk.serialize]
  have hblank : (scanner .accept).run ⟨inHeaders .headerKeyBefore
      [(transferEncodingHeader, [ascii "chunked"])] b, (hugeRequest data h).headCalls, kept⟩
      (crlf ++ (ascii "4000000000000000" ++ CR :: rest)) = (scanner .accept).run
        ⟨inChunks .bodyChunkSizeBefore 0, (hugeRequest data h).headCalls ++
          [.onContentLength (-1)], []⟩
        (ascii "4000000000000000" ++ CR :: rest) := run_blank_chunked rfl rfl rfl _
  have hsize : parseAndValidateChunkSize (ascii "4000000000000000") =
      .error (.chunkSizeParse (ascii "4000000000000000") .range) := rfl
  rw [hrest] at hhead
  have hrun := hhead.trans (hblank.trans
    (run_chunkSize_refused rfl rfl rest (by decide) (by decide) hsize))
  exact (hm.error _ hrun).2.1

/-- A canonical request that is not decoded: its only chunk has `2 ^ 62` bytes. -/
theorem parse_hugeRequest : ∃ r : Request,
    ((newParser false).parse .accept 0 [] r.serialize).err =
      some (.chunkSizeParse (ascii "4000000000000000") .range) :=
  ⟨hugeRequest (replicate (2 ^ 62) 0) length_replicate, parse_huge _ _⟩

end Nbio.Http
