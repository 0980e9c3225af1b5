import Nbio.Http.ByteStep

/-!
# How a message is framed

At the blank line behind the header lines the parser decides how long the body is: from the
`Transfer-Encoding` header if there is one, and else from `Content-Length`.  It has kept the values
of these headers in `header` while it read the lines.

`headLines` are the lines of a message, as they were reported by `OnHeader`, and `Lined` says that
`header` holds what they give.
-/

namespace Nbio.Http

open Nbio.Go List
open Fields (isFramingKey cutSpaces addTrailer)

/-! ## Header lines -/

/-- A header line: the canonical name and the value. -/
abbrev Line := Bytes × Bytes

def addLine (lines : List Line) : Callback → List Line
  | .onHeader key value => lines ++ [(key, value)]
  | .onComplete => []
  | _ => lines

def headLines (log : Log) : List Line := log.foldl addLine []

@[simp] theorem headLines_append (log : Log) (cb : Callback) :
    headLines (log ++ [cb]) = addLine (headLines log) cb := by
  simp [headLines]

def valuesOf (key : Bytes) (lines : List Line) : List Bytes :=
  (lines.filter (·.1 == key)).map Prod.snd

@[simp] theorem valuesOf_append (key : Bytes) (lines : List Line) (l : Line) :
    valuesOf key (lines ++ [l]) = valuesOf key lines ++ if l.1 = key then [l.2] else [] := by
  unfold valuesOf
  by_cases hk : l.1 = key
  · simp [hk]
  · simp [hk]

/-- A header map holds the values that the lines give for the framing headers. -/
def Holds (h : Header) (lines : List Line) : Prop :=
  ∀ key, Fields.isFramingKey key = true →
    h.lookup key = if valuesOf key lines = [] then none else some (valuesOf key lines)

theorem holds_nil : Holds [] [] := fun _ _ => rfl

theorem Holds.addLine {h : Header} {lines : List Line} (hh : Holds h lines) (key value : Bytes) :
    Holds (if isFramingKey key then h.add key value else h) (lines ++ [(key, value)]) := by
  intro k hk
  by_cases hkey : k = key
  · subst hkey
    rw [if_pos hk, Header.lookup_add, hh k hk]
    by_cases hnil : valuesOf k lines = []
    · simp [hnil]
    · simp [hnil]
  · have hsame : (if isFramingKey key = true then h.add key value else h).lookup k =
        h.lookup k := by
      split
      · rw [Header.lookup_add, if_neg hkey]
      · rfl
    rw [hsame, hh k hk]
    simp [Ne.symm hkey]

/-! ## Every byte keeps the lines -/

/-- Nothing is decided yet, and `header` holds what the lines give. -/
structure Fields.Kept (p : Fields) (log : Log) : Prop where
  chunked : p.chunked = false
  header : Holds p.header (headLines log)

def Lined (p : Fields) (log : Log) : Prop := p.state.inHead = true → p.Kept log

/-- `I` holds of the fields and the calls if the loop goes on, or where it panics. -/
def Act.Keeps (a : Act) (I : Fields → Log → Prop) : Prop :=
  match a with
  | .go p log _ => I p log
  | .fail .. => True
  | .panic p log => I p log

section Lined

variable {p : Fields} {log : Log}

namespace Fields.Kept

theorem same {q : Fields} (h : p.Kept log) (hchunked : q.chunked = p.chunked)
    (hheader : q.header = p.header) : q.Kept log :=
  ⟨hchunked.trans h.chunked, hheader ▸ h.header⟩

theorem call (h : p.Kept log) {cb : Callback} (hcb : ∀ lines, addLine lines cb = lines) :
    p.Kept (log ++ [cb]) := by
  refine ⟨h.chunked, ?_⟩
  rw [headLines_append, hcb]
  exact h.header

theorem next (h : p.Kept log) (s : State) : Lined (p.nextState s) log := by
  intro _
  unfold Fields.nextState
  split
  · exact h
  · exact h.same rfl rfl

end Fields.Kept

theorem lined_endHeader (h : p.Kept log) (value : Bytes) :
    Lined (p.endHeader value) (log ++ [.onHeader p.headerKey value]) := by
  have hkept : Fields.Kept
      { p with
        header := if isFramingKey p.headerKey then p.header.add p.headerKey value else p.header
        headerKey := [], headerValue := [] } (log ++ [.onHeader p.headerKey value]) := by
    refine ⟨h.chunked, ?_⟩
    rw [headLines_append]
    exact h.header.addLine p.headerKey value
  exact hkept.next .headerValueLF

theorem lined_out {s : State} (hs : s.inHead = false) : Lined (p.nextState s) log := by
  intro hin
  unfold Fields.nextState at hin
  split at hin
  · next hclose =>
    rw [hclose] at hin
    cases hin
  · rw [hs] at hin
    cases hin

theorem Lined.move {q : Fields} {s : State} {c : UInt8} (h : Lined p log) (hq : p.Alike q)
    (hs : p.state.leads c s = true) : Lined (q.nextState s) log := by
  cases hin : p.state.inHead with
  | true => exact ((h hin).same hq.chunked hq.header).next s
  | false =>
    unfold State.leads at hs
    rw [hin, Bool.or_false, Bool.and_eq_true, Bool.not_eq_true'] at hs
    exact lined_out hs.1

theorem Lined.piece (h : Lined p log) {cb : Callback} (hcb : cb.isPiece = true) :
    Lined p (log ++ [cb]) := by
  intro hin
  refine (h hin).call ?_
  cases cb with
  | onHeader key value => cases hcb
  | onComplete => cases hcb
  | _ => exact fun _ => rfl

theorem lined_endMessage (proc : Processor) :
    Lined (endMessage proc p log).1 (endMessage proc p log).2 := by
  refine Fields.Kept.next ⟨rfl, ?_⟩ _
  rw [endMessage, headLines_append]
  exact holds_nil

variable {proc : Processor}

theorem ByteStep.lined {c : UInt8} {q : Fields} {log' : Log} (hstep : ByteStep proc p log c q log')
    (h : Lined p log) : Lined q log' := by
  cases hstep with
  | stay hq =>
    intro hin
    rw [hq.state] at hin
    exact (h hin).same hq.chunked hq.header
  | move hq hs => exact h.move hq hs
  | call hq hs hcb => exact (h.piece hcb).move hq hs
  | line hin value => exact lined_endHeader (h hin) value
  | blank hq l => exact lined_out rfl
  | complete hq hne hc => exact lined_endMessage proc

theorem onByte_lined (proc : Processor) (tok : Option Bytes) (c : UInt8) (h : Lined p log) :
    (onByte proc p log tok c).Keeps Lined := by
  have hdoes := onByte_does proc p log tok c
  cases hact : onByte proc p log tok c with
  | go q log' st =>
    rw [hact] at hdoes
    exact ByteStep.lined hdoes h
  | fail q log' e => trivial
  | panic q log' =>
    rw [hact] at hdoes
    obtain ⟨rfl, rfl⟩ := hdoes
    exact h

theorem endBody_lined (proc : Processor) :
    Lined (endBody proc p log).1 (endBody proc p log).2 := by
  unfold endBody
  split
  · exact lined_endMessage proc
  · exact lined_out rfl

/-- What is left of the fields and the calls when the loop is left without an error. -/
def LoopEnd.Keeps (e : LoopEnd) (I : Fields → Log → Prop) : Prop :=
  match e with
  | .exit p log _ | .upgrade p log _ | .panic p log | .stuck p log => I p log
  | .fail .. => True

def Iter.Keeps (it : Iter) (I : Fields → Log → Prop) : Prop :=
  match it with
  | .next p log _ _ => I p log
  | .leave e => e.Keeps I

theorem onBody_lined {data : Bytes} {start : Nat} {cl : Int} (h : Lined p log) :
    (onBody proc data p log start cl).Keeps Lined := by
  unfold onBody
  dsimp only
  split
  · split
    · exact h
    · split
      · trivial
      · exact endBody_lined proc
  · exact h

theorem iterate_lined (proc : Processor) (data : Bytes) (start i : Nat) (c : UInt8)
    (h : Lined p log) : (iterate proc data p log start i c).Keeps Lined := by
  unfold iterate
  split
  · exact fun hin => (h hin).call fun _ => rfl
  split
  · exact onBody_lined h
  · have hbyte := onByte_lined proc (slice data start i) c h
    cases hact : onByte proc p log (slice data start i) c with
    | go p' log' st =>
      rw [hact] at hbyte
      exact hbyte
    | fail p' log' e => trivial
    | panic p' log' =>
      rw [hact] at hbyte
      exact hbyte

theorem loop_lined {data : Bytes} (fuel : Nat) {start i : Nat} (h : Lined p log) :
    (loop proc data fuel p log start i).Keeps Lined := by
  induction fuel generalizing p log start i with
  | zero => exact h
  | succ fuel ih =>
    unfold loop
    split
    · next hi =>
      have hstep := iterate_lined proc data start i data[i] h
      split
      · next hit =>
        rw [hit] at hstep
        exact ih hstep
      · next hit =>
        rw [hit] at hstep
        exact hstep
    · exact h

end Lined

namespace Parser

variable {proc : Processor} {readLimit : Int} {p : Parser} {log : Log}

theorem keepLeft_fields (data : Bytes) (start : Nat) :
    (p.keepLeft data start).toFields = p.toFields := by
  unfold keepLeft
  dsimp only
  repeat' split
  all_goals rfl

theorem upgrader_lined (h : Lined p.toFields log) (data : Bytes) (start : Nat) :
    Lined (upgrader proc p log data start).parser.toFields
      (upgrader proc p log data start).log := by
  intro hin
  exact ((h hin).same rfl rfl).call fun _ => rfl

theorem leave_lined {e : LoopEnd} (h : e.Keeps Lined) (data : Bytes)
    (herr : (leave proc p data e).err = none) :
    Lined (leave proc p data e).parser.toFields (leave proc p data e).log := by
  cases e with
  | exit f log start =>
    rw [leave, keepLeft_fields]
    exact h
  | fail f log e => cases herr
  | upgrade f log start => exact upgrader_lined (p := { p with toFields := f }) h data start
  | panic f log => exact h
  | stuck f log => exact h

theorem parse_lined (h : Lined p.toFields log) (data : Bytes)
    (herr : (p.parse proc readLimit log data).err = none) :
    Lined (p.parse proc readLimit log data).parser.toFields
      (p.parse proc readLimit log data).log := by
  unfold parse at herr ⊢
  dsimp only at herr ⊢
  by_cases hclose : p.state = .close
  · rw [if_pos hclose] at herr
    cases herr
  rw [if_neg hclose] at herr ⊢
  by_cases hnil : data = []
  · rw [if_pos hnil]
    exact h
  rw [if_neg hnil] at herr ⊢
  generalize hcached : (p.initReadDeadline.bytesCached.getD []) = cached at herr ⊢
  by_cases hlimit : 0 < cached.length ∧ 0 < readLimit ∧ readLimit < cached.length + data.length
  · rw [if_pos hlimit] at herr
    cases herr
  rw [if_neg hlimit] at herr ⊢
  generalize hload : (if 0 < cached.length then
    { p.initReadDeadline with bytesCached := some (cached ++ data) } else p.initReadDeadline) = q
    at herr ⊢
  have hq : Lined q.toFields log := by
    subst hload
    split
    · exact h
    · exact h
  split
  · exact upgrader_lined hq _ _
  · next hcloser =>
    rw [if_neg hcloser] at herr
    exact leave_lined (loop_lined _ hq) _ herr

theorem feed_lined (h : Lined p.toFields log) (segs : List Bytes)
    (herr : (p.feed proc readLimit log segs).err = none) :
    Lined (p.feed proc readLimit log segs).parser.toFields
      (p.feed proc readLimit log segs).log := by
  induction segs generalizing p log with
  | nil => exact h
  | cons seg segs ih =>
    unfold feed at herr ⊢
    dsimp only at herr ⊢
    cases hseg : (p.parse proc readLimit log seg).err with
    | some e =>
      rw [hseg] at herr
      rw [hseg] at herr
      cases herr
    | none =>
      rw [hseg] at herr
      exact ih (parse_lined h seg hseg) herr

end Parser

/-! ## The blank line -/

def isChunked (enc : Bytes) : Prop := toLower (trimString enc) = ascii "chunked"

/-- The number that a value gives in decimal digits, with spaces around them. -/
def numberOf (value : Bytes) : Option Nat :=
  let digits := (value.dropWhile (· == SP)).rdropWhile (· == SP)
  if digits ≠ [] ∧ digits.all isNum = true then some (digitsVal 10 0 digits) else none

def OneNumber (values : List Bytes) : Prop := ∃ n, ∀ v ∈ values, numberOf v = some n

def announced (lines : List Line) : List Bytes :=
  (valuesOf trailerHeader lines).flatMap Fields.trailerNames

/-- The header lines are refused for what the code looks at: another encoding than `chunked`, a name
of a framing header in a trailer, or a first `Content-Length` that `ParseInt` does not accept. -/
def Refused (lines : List Line) : Prop :=
  match valuesOf transferEncodingHeader lines, valuesOf contentLengthHeader lines with
  | [], [] => False
  | [], v :: _ => v ≠ [] ∧ ∀ l, 0 ≤ l → parseInt (Fields.cutSpaces v) 10 63 ≠ .ok l
  | [enc], _ => ¬ isChunked enc ∨ ∃ name ∈ announced lines, Fields.isFramingKey name = true
  | _, _ => True

/-- How a message is framed that is not refused. -/
def Framed (lines : List Line) (p : Fields) : Prop :=
  (p.chunked = true ∧ ∃ enc, valuesOf transferEncodingHeader lines = [enc] ∧ isChunked enc) ∨
  (p.chunked = false ∧ valuesOf contentLengthHeader lines ≠ [] ∧
    ∃ n : Nat, (∀ v ∈ valuesOf contentLengthHeader lines, numberOf v = some n) ∧
      p.contentLength = n) ∨
  (p.chunked = false ∧ valuesOf contentLengthHeader lines = [] ∧ p.contentLength = -1)

/-- The outcome of the blank line is unambiguous: a message that goes on is framed by what its lines
say, and one whose `Content-Length` values do not give one number is refused. -/
structure Unambiguous (lines : List Line) (a : Act) : Prop where
  framed : ∀ p log s, a = .go p log s → Framed lines p
  refused : ¬ OneNumber (valuesOf contentLengthHeader lines) → ∃ p log e, a = .fail p log e

section BlankLine

variable {p : Fields} {log : Log}

theorem foldlM_addTrailer (names acc : List Bytes) :
    (∃ e, names.foldlM addTrailer acc = .error e) ↔
      ∃ name ∈ names, isFramingKey name = true := by
  induction names generalizing acc with
  | nil => simp [pure, Except.pure]
  | cons name names ih =>
    rw [foldlM_cons]
    by_cases hname : isFramingKey name = true
    · refine iff_of_true ⟨.badTrailerKey name, ?_⟩ ⟨name, mem_cons_self, hname⟩
      rw [addTrailer, if_pos hname]
      rfl
    · obtain ⟨acc', hacc⟩ : ∃ acc', addTrailer acc name = .ok acc' := by
        unfold addTrailer
        rw [if_neg hname]
        split
        · exact ⟨_, rfl⟩
        · exact ⟨_, rfl⟩
      rw [hacc]
      refine (ih acc').trans ?_
      simp [hname]

theorem nextState_framing (p : Fields) (s : State) :
    (p.nextState s).chunked = p.chunked ∧ (p.nextState s).contentLength = p.contentLength := by
  unfold Fields.nextState
  split
  · exact ⟨rfl, rfl⟩
  · exact ⟨rfl, rfl⟩

theorem endHeaders_plain (h : p.Kept log)
    (hte : valuesOf transferEncodingHeader (headLines log) = []) :
    endHeaders p log =
      match p.parseContentLength with
      | (p, some e) => .fail p log e
      | (p, none) =>
        .go (p.nextState .headerOverLF) (log ++ [.onContentLength p.contentLength]) .after := by
  have hlookup : p.header.lookup transferEncodingHeader = none := by
    rw [h.header _ rfl, if_pos hte]
  have hsame : p.parseTransferEncoding = (p, none) := by
    rw [Fields.parseTransferEncoding, hlookup]
  obtain ⟨l, hl⟩ := p.parseContentLength_eq
  rw [endHeaders, hsame]
  dsimp only
  generalize p.parseContentLength = r at hl
  obtain ⟨q, _ | e⟩ := r
  · dsimp only at hl ⊢
    have hplain : q.parseTrailer = (q, none) := by
      subst hl
      rw [Fields.parseTrailer]
      simp [h.chunked]
    rw [hplain]
  · rfl

theorem endHeaders_announced (h : p.Kept log) {enc : Bytes}
    (hte : valuesOf transferEncodingHeader (headLines log) = [enc]) (henc : isChunked enc) :
    (∃ names header, (announced (headLines log)).foldlM addTrailer [] = .ok names ∧
      endHeaders p log = .go ({ p with
        header := header, chunked := true, contentLength := -1
        trailer := if names = [] then p.trailer else names }.nextState .headerOverLF)
        (log ++ [.onContentLength (-1)]) .after) ∨
    ∃ e q log', (announced (headLines log)).foldlM addTrailer [] = .error e ∧
      endHeaders p log = .fail q log' e := by
  have hlookup : p.header.lookup transferEncodingHeader = some [enc] := by
    rw [h.header _ rfl, hte]
    rfl
  -- both framing headers are gone behind `parseTransferEncoding`
  generalize hq : ({ p with
      header := (p.header.delete transferEncodingHeader).delete contentLengthHeader
      chunked := true } : Fields) = q
  have hte' : p.parseTransferEncoding = (q, none) := by
    rw [Fields.parseTransferEncoding, hlookup]
    dsimp only
    rw [if_pos (show toLower (trimString enc) = ascii "chunked" from henc), ← hq]
  have hcl : q.parseContentLength = ({ q with contentLength := -1 }, none) := by
    have hget : q.header.get contentLengthHeader = [] := by
      rw [Header.get, ← hq]
      rw [Header.lookup_delete, if_pos rfl]
    rw [Fields.parseContentLength]
    rw [if_pos hget]
  have htrailer : q.header.lookup trailerHeader =
      if valuesOf trailerHeader (headLines log) = [] then none
      else some (valuesOf trailerHeader (headLines log)) := by
    rw [← hq]
    rw [Header.lookup_delete, Header.lookup_delete]
    exact h.header _ rfl
  have hchunked : q.chunked = true := by rw [← hq]
  rw [endHeaders, hte']
  dsimp only
  rw [hcl]
  unfold Fields.parseTrailer
  dsimp only
  rw [hchunked, htrailer]
  by_cases hnil : valuesOf trailerHeader (headLines log) = []
  · rw [if_pos hnil]
    refine .inl ⟨[], q.header, ?_, ?_⟩
    · rw [announced, hnil]
      rfl
    · rw [← hq]
      rfl
  · rw [if_neg hnil]
    dsimp only
    unfold announced
    rcases hfold : (flatMap Fields.trailerNames
      (valuesOf trailerHeader (headLines log))).foldlM addTrailer [] with e | _ | ⟨t, ts⟩
    · exact .inr ⟨e, _, _, rfl, rfl⟩
    · refine .inl ⟨[], q.header.delete trailerHeader, rfl, ?_⟩
      rw [← hq]
      rfl
    · refine .inl ⟨t :: ts, q.header.delete trailerHeader, rfl, ?_⟩
      rw [← hq]
      rfl

theorem endHeaders_chunked (h : p.Kept log) {enc : Bytes}
    (hte : valuesOf transferEncodingHeader (headLines log) = [enc]) (henc : isChunked enc) :
    (∃ q log' s, endHeaders p log = .go q log' s ∧ q.chunked = true ∧
      ¬ ∃ name ∈ announced (headLines log), isFramingKey name = true) ∨
    ((∃ q log' e, endHeaders p log = .fail q log' e) ∧
      ∃ name ∈ announced (headLines log), isFramingKey name = true) := by
  have hnames := foldlM_addTrailer (announced (headLines log)) []
  rcases endHeaders_announced h hte henc with ⟨names, header, hok, hgo⟩ | ⟨e, q, log', herr, hfail⟩
  · refine .inl ⟨_, _, _, hgo, (nextState_framing _ _).1, ?_⟩
    rw [← hnames, hok]
    nofun
  · exact .inr ⟨⟨q, log', e, hfail⟩, hnames.1 ⟨e, herr⟩⟩

theorem endHeaders_encoded (h : p.Kept log)
    (hne : valuesOf transferEncodingHeader (headLines log) ≠ [])
    (hte : ¬ ∃ enc, valuesOf transferEncodingHeader (headLines log) = [enc] ∧ isChunked enc) :
    ∃ q log' e, endHeaders p log = .fail q log' e := by
  have hlookup : p.header.lookup transferEncodingHeader =
      some (valuesOf transferEncodingHeader (headLines log)) := by
    rw [h.header _ rfl, if_neg hne]
  have hfail : ∃ q e, p.parseTransferEncoding = (q, some e) := by
    rw [Fields.parseTransferEncoding, hlookup]
    dsimp only
    split
    · next enc hone =>
      have henc : ¬ toLower (trimString enc) = ascii "chunked" := fun henc => hte ⟨enc, hone, henc⟩
      rw [if_neg henc]
      exact ⟨_, _, rfl⟩
    · exact ⟨_, _, rfl⟩
  obtain ⟨q, e, hq⟩ := hfail
  exact ⟨q, log, e, by rw [endHeaders, hq]⟩

theorem parseContentLength_first (h : p.Kept log) {v : Bytes} {vs : List Bytes}
    (hcl : valuesOf contentLengthHeader (headLines log) = v :: vs) :
    (v = [] ∧ p.parseContentLength = ({ p with contentLength := -1 }, none)) ∨
    (∃ l : Int, 0 ≤ l ∧ v ≠ [] ∧ parseInt (cutSpaces v) 10 63 = .ok l ∧
      p.parseContentLength = ({ p with contentLength := l }, none)) ∨
    (v ≠ [] ∧ (∀ l, 0 ≤ l → parseInt (cutSpaces v) 10 63 ≠ .ok l) ∧
      ∃ e, p.parseContentLength = (p, some e)) := by
  have hget : p.header.get contentLengthHeader = v := by
    rw [Header.get, h.header _ rfl, hcl]
    rfl
  unfold Fields.parseContentLength
  dsimp only
  rw [hget, h.chunked]
  by_cases hnil : v = []
  · left
    exact ⟨hnil, by rw [if_pos hnil]⟩
  · rw [if_neg hnil, if_neg Bool.false_ne_true]
    right
    cases hparse : parseInt (cutSpaces v) 10 63 with
    | error e => exact .inr ⟨hnil, nofun, _, rfl⟩
    | ok l =>
      dsimp only
      by_cases hneg : l < 0
      · right
        refine ⟨hnil, fun l' hl' heq => ?_, _, by rw [if_pos hneg]⟩
        cases heq
        omega
      · left
        exact ⟨l, by omega, hnil, rfl, by rw [if_neg hneg]⟩

theorem parseInt_numberOf {v : Bytes} {n : Nat} {l : Int} (hn : numberOf v = some n)
    (hl : parseInt (cutSpaces v) 10 63 = .ok l) : l = n := by
  unfold numberOf at hn
  dsimp only at hn
  split at hn
  swap
  · cases hn
  next hdigits =>
  obtain rfl : _ = n := Option.some.inj hn
  obtain ⟨hne, hnum⟩ := hdigits
  have hall : ¬ v.all (· == SP) = true := by
    intro hall
    refine hne ?_
    rw [dropWhile_eq_nil_iff.2 (all_eq_true.1 hall)]
    rfl
  rw [cutSpaces, if_neg hall] at hl
  -- what is parsed begins with a digit or a sign, so that there is no space in front
  have hfront : v.dropWhile (· == SP) = v := by
    have hpre := rdropWhile_prefix (· == SP) v
    cases hs : v.rdropWhile (· == SP) with
    | nil =>
      rw [hs] at hl
      cases hl
    | cons c cs =>
      rw [hs] at hl hpre
      obtain ⟨rest, hrest⟩ := hpre
      have hc : c ≠ SP := by
        rintro rfl
        cases hl
      rw [← hrest, cons_append, dropWhile_cons_of_neg (by simpa using hc)]
  rw [hfront] at hnum ⊢
  exact parseInt_ok_of_digits (fun c hc => isNum_digit (all_eq_true.1 hnum c hc)) hl

theorem endHeaders_cases (h : p.Kept log) :
    (Refused (headLines log) ∧ ∃ q log' e, endHeaders p log = .fail q log' e) ∨
    (¬ Refused (headLines log) ∧ ∃ q log' s, endHeaders p log = .go q log' s ∧
      ((q.chunked = true ∧ ∃ enc, valuesOf transferEncodingHeader (headLines log) = [enc] ∧
        isChunked enc) ∨
      (q.chunked = false ∧ ((valuesOf contentLengthHeader (headLines log) = [] ∧
        q.contentLength = -1) ∨ ∃ v vs, valuesOf contentLengthHeader (headLines log) = v :: vs ∧
        (v = [] ∨ parseInt (cutSpaces v) 10 63 = .ok q.contentLength))))) := by
  unfold Refused
  rcases hte : valuesOf transferEncodingHeader (headLines log) with _ | ⟨enc, _ | ⟨enc', encs⟩⟩
  · rw [endHeaders_plain h hte]
    rcases hcl : valuesOf contentLengthHeader (headLines log) with _ | ⟨v, vs⟩
    · right
      have hget : p.header.get contentLengthHeader = [] := by
        rw [Header.get, h.header _ rfl, hcl]
        rfl
      have hparse : p.parseContentLength = ({ p with contentLength := -1 }, none) := by
        rw [Fields.parseContentLength]
        rw [if_pos hget]
      rw [hparse]
      refine ⟨id, _, _, _, rfl, .inr ⟨(nextState_framing _ _).1.trans h.chunked, .inl ⟨rfl, ?_⟩⟩⟩
      exact (nextState_framing _ _).2
    · obtain ⟨hnil, hparse⟩ | ⟨l, hl, hne, hint, hparse⟩ | ⟨hne, hint, e, hparse⟩ :=
        parseContentLength_first h hcl
      · right
        rw [hparse]
        refine ⟨fun href => href.1 hnil, _, _, _, rfl,
          .inr ⟨(nextState_framing _ _).1.trans h.chunked, .inr ⟨v, vs, rfl, .inl hnil⟩⟩⟩
      · right
        rw [hparse]
        refine ⟨fun href => href.2 l hl hint, _, _, _, rfl, .inr
          ⟨(nextState_framing _ _).1.trans h.chunked, .inr ⟨v, vs, rfl, .inr ?_⟩⟩⟩
        rw [(nextState_framing _ _).2]
        exact hint
      · left
        rw [hparse]
        exact ⟨⟨hne, hint⟩, _, _, _, rfl⟩
  · by_cases henc : isChunked enc
    · rcases endHeaders_chunked h hte henc with ⟨q, log', s, hgo, hq, hnames⟩ | ⟨hfail, hnames⟩
      · right
        refine ⟨?_, q, log', s, hgo, .inl ⟨hq, enc, rfl, henc⟩⟩
        rintro (href | href)
        · exact href henc
        · exact hnames href
      · exact .inl ⟨.inr hnames, hfail⟩
    · left
      refine ⟨.inl henc, endHeaders_encoded h (by rw [hte]; exact cons_ne_nil _ _) ?_⟩
      rintro ⟨enc', hte', henc'⟩
      rw [hte] at hte'
      cases hte'
      exact henc henc'
  · left
    refine ⟨trivial, endHeaders_encoded h (by rw [hte]; exact cons_ne_nil _ _) ?_⟩
    rintro ⟨enc'', hte', -⟩
    rw [hte] at hte'
    cases hte'

theorem endHeaders_unambiguous_iff (h : p.Kept log) :
    Unambiguous (headLines log) (endHeaders p log) ↔
      OneNumber (valuesOf contentLengthHeader (headLines log)) ∨ Refused (headLines log) := by
  constructor
  · intro hun
    by_cases hone : OneNumber (valuesOf contentLengthHeader (headLines log))
    · exact .inl hone
    · right
      obtain ⟨q, log', e, hfail⟩ := hun.refused hone
      rcases endHeaders_cases h with ⟨href, -⟩ | ⟨-, q', log'', s, hgo, -⟩
      · exact href
      · rw [hgo] at hfail
        cases hfail
  · intro hclean
    rcases endHeaders_cases h with ⟨-, hfail⟩ | ⟨hnot, q, log', s, hgo, hq⟩
    · refine ⟨fun q log' s hgo => ?_, fun _ => hfail⟩
      obtain ⟨q', log'', e, hfail⟩ := hfail
      rw [hgo] at hfail
      cases hfail
    · obtain ⟨n, hn⟩ := hclean.resolve_right hnot
      refine ⟨fun q' log'' s' hgo' => ?_, fun hbad => absurd ⟨n, hn⟩ hbad⟩
      rw [hgo] at hgo'
      cases hgo'
      rcases hq with hchunked | ⟨hplain, ⟨hnil, hlen⟩ | ⟨v, vs, hcl, hv⟩⟩
      · exact .inl hchunked
      · exact .inr (.inr ⟨hplain, hnil, hlen⟩)
      · have hnum : numberOf v = some n := hn v (by rw [hcl]; exact mem_cons_self)
        refine .inr (.inl ⟨hplain, by rw [hcl]; exact cons_ne_nil _ _, n, hn, ?_⟩)
        rcases hv with rfl | hint
        · cases hnum
        · exact parseInt_numberOf hnum hint

end BlankLine

/-- Whatever has been fed to a new parser, in whatever pieces: when it is in front of a blank line,
the framing that the blank line leads to is unambiguous exactly when the `Content-Length` values
give one number, or the lines are refused for what the code looks at. -/
theorem framing_unambiguous_iff (proc : Processor) (isClient : Bool) (readLimit : Int)
    (segs : List Bytes) (tok : Option Bytes)
    (herr : ((newParser isClient).feed proc readLimit [] segs).err = none)
    (hstate : ((newParser isClient).feed proc readLimit [] segs).parser.state = .headerKeyBefore) :
    let r := (newParser isClient).feed proc readLimit [] segs
    Unambiguous (headLines r.log) (onByte proc r.parser.toFields r.log tok CR) ↔
      OneNumber (valuesOf contentLengthHeader (headLines r.log)) ∨ Refused (headLines r.log) := by
  have hnew : Lined (newParser isClient).toFields [] := fun _ => ⟨rfl, holds_nil⟩
  have hlined := Parser.feed_lined hnew segs herr
  have hblank : ∀ p log, p.state = .headerKeyBefore →
      onByte proc p log tok CR = endHeaders p log := by
    intro p log hp
    unfold onByte
    rw [hp]
    rfl
  dsimp only
  rw [hblank _ _ hstate]
  exact endHeaders_unambiguous_iff (hlined (by rw [hstate]; rfl))

def requestHead (lines : List String) : Bytes :=
  ascii "POST / HTTP/1.1\r\n" ++ lines.flatMap fun l => ascii l ++ crlf

theorem framing_unambiguous_iff_one_length :
    let r := (newParser false).feed .accept 0 [] [requestHead ["Content-Length: 5 "]]
    r.err = none ∧ r.parser.state = .headerKeyBefore ∧
      Unambiguous (headLines r.log) (onByte .accept r.parser.toFields r.log none CR) := by
  refine ⟨rfl, rfl, (framing_unambiguous_iff .accept false 0 _ none rfl rfl).2 (.inl ⟨5, ?_⟩)⟩
  decide

theorem not_oneNumber {values : List Bytes} {v : Bytes} (hv : v ∈ values)
    (hnone : numberOf v = none) : ¬ OneNumber values := by
  rintro ⟨n, hn⟩
  have hsome := hn v hv
  rw [hnone] at hsome
  cases hsome

/-- `Content-Length` values that disagree, that have a sign, of which the first is empty, or that
are no number beside a `Transfer-Encoding`: the parser goes on behind each of the blank lines. -/
theorem bad_lengths_are_accepted :
    let heads := [["Content-Length: 5", "Content-Length: 6"], ["Content-Length: +5"],
      ["Content-Length:", "Content-Length: 6"], ["Transfer-Encoding: chunked", "Content-Length: x"]]
    ∀ head ∈ heads,
      let r := (newParser false).feed .accept 0 [] [requestHead head]
      r.err = none ∧ r.parser.state = .headerKeyBefore ∧
        ¬ OneNumber (valuesOf contentLengthHeader (headLines r.log)) ∧
        ¬ Unambiguous (headLines r.log) (onByte .accept r.parser.toFields r.log none CR) := by
  have hgoes : ∀ {r : Result} {q : Fields} {log : Log}, r.err = none →
      r.parser.state = .headerKeyBefore →
      onByte .accept r.parser.toFields r.log none CR = .go q log .after →
      ¬ OneNumber (valuesOf contentLengthHeader (headLines r.log)) →
      r.err = none ∧ r.parser.state = .headerKeyBefore ∧
        ¬ OneNumber (valuesOf contentLengthHeader (headLines r.log)) ∧
        ¬ Unambiguous (headLines r.log) (onByte .accept r.parser.toFields r.log none CR) := by
    intro r q log herr hstate hgo hbad
    refine ⟨herr, hstate, hbad, fun hun => ?_⟩
    obtain ⟨q', log', e, hfail⟩ := hun.refused hbad
    rw [hgo] at hfail
    cases hfail
  intro heads head hmem
  simp only [heads, mem_cons, not_mem_nil, or_false] at hmem
  rcases hmem with rfl | rfl | rfl | rfl
  · refine hgoes rfl rfl rfl ?_
    rintro ⟨n, hn⟩
    have h5 := hn (ascii "5") (by decide)
    have h6 := hn (ascii "6") (by decide)
    rw [← h5] at h6
    cases h6
  · have hsigned : numberOf (ascii "+5") = none := by decide
    exact hgoes rfl rfl rfl (not_oneNumber (by decide) hsigned)
  · have hempty : numberOf (ascii "") = none := by decide
    exact hgoes rfl rfl rfl (not_oneNumber (by decide) hempty)
  · have hword : numberOf (ascii "x") = none := by decide
    exact hgoes rfl rfl rfl (not_oneNumber (by decide) hword)

end Nbio.Http
