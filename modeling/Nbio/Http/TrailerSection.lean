import Mathlib.Data.List.Nodup
import Nbio.Http.Canonical
import Nbio.Http.Framing
import Nbio.Http.HeaderNames

/-!
# The trailer section

The lines behind the last chunk are read by states of their own.  They differ from the states for
header lines in two ways: a value ends at its first space, and a line whose value is empty, or is
nothing but spaces, does not strike its name off the names that are still expected.
-/

namespace Nbio.Http

open Nbio.Go Nbio.Lib List
open Callback

/-! ## Nothing is expected before the blank line -/

variable {proc : Processor} {p : Fields} {log : Log}

def Cfg.Unexpecting (k : Cfg) : Prop := k.p.state.inHead = true → k.p.trailer = []

theorem endMessage_unexpecting (proc : Processor) (p : Fields) (log : Log) :
    (endMessage proc p log).1.trailer = [] := by
  unfold endMessage Fields.handleMessage Fields.nextState
  split <;> rfl

theorem nextState_inHead {s : State} (h : (p.nextState s).state.inHead = true) :
    s.inHead = true := by
  unfold Fields.nextState at h
  split at h
  · next hclose =>
    rw [hclose] at h
    cases h
  · exact h

theorem endBody_unexpecting (hin : (endBody proc p log).1.state.inHead = true) :
    (endBody proc p log).1.trailer = [] := by
  revert hin
  unfold endBody
  split
  · exact fun _ => endMessage_unexpecting _ _ _
  · intro hin
    cases nextState_inHead hin

theorem ByteStep.unexpecting {q : Fields} {log' : Log} {c : UInt8}
    (h : ByteStep proc p log c q log') (hp : p.state.inHead = true → p.trailer = [])
    (hin : q.state.inHead = true) : q.trailer = [] := by
  have leads : ∀ {r : Fields} {s : State}, p.Alike r → p.state.leads c s = true →
      (r.nextState s).state.inHead = true → (r.nextState s).trailer = [] := by
    intro r s hr hs hin
    have hhead : p.state.inHead = true := by
      unfold State.leads at hs
      rw [nextState_inHead hin, Bool.not_true, Bool.and_eq_true] at hs
      exact hs.1
    unfold Fields.nextState
    split <;> exact (hr.trailer hhead).trans (hp hhead)
  cases h with
  | stay hq =>
    rw [hq.state] at hin
    exact (hq.trailer hin).trans (hp hin)
  | move hq hs | call hq hs _ => exact leads hq hs hin
  | line hhead value =>
    unfold Fields.endHeader Fields.nextState
    split <;> exact hp hhead
  | blank _ _ => cases nextState_inHead hin
  | complete _ _ _ => exact endMessage_unexpecting _ _ _

theorem Cfg.unexpecting_step {k k' : Cfg} {xs : Bytes} {n : Nat} (hk : k.Unexpecting)
    (h : (scanner proc).next k xs = .step n k') : k'.Unexpecting := by
  intro hin
  obtain ⟨-, ⟨cl, -, -, -, -, hp, -, -⟩ | ⟨c, rest, s, -, -, -, hgo, -⟩⟩ := next_cases h
  · rw [hp] at hin ⊢
    exact endBody_unexpecting hin
  · have hdoes := onByte_does proc k.p k.log (some k.kept) c
    rw [hgo] at hdoes
    exact ByteStep.unexpecting hdoes hk hin

/-! ## Trailer lines -/

/-- A line of the trailer section: a name and any value that stays on the line. -/
structure TrailerLine where
  name : Bytes
  value : Bytes
  name_ne : name ≠ []
  name_token : name.all isToken = true
  value_line : ∀ c ∈ value, c ≠ CR ∧ c ≠ LF

variable {l : TrailerLine}

namespace TrailerLine

def text (l : TrailerLine) : Bytes := l.name ++ COLON :: (l.value ++ crlf)

def key (l : TrailerLine) : Bytes := canonicalHeaderKey l.name

def isBlank (l : TrailerLine) : Bool := l.value.all (· == SP)

def word (l : TrailerLine) : Bytes := (l.value.dropWhile (· == SP)).takeWhile (· != SP)

def reported (l : TrailerLine) : Bytes := if l.isBlank then l.value else l.word

def call (l : TrailerLine) : Callback := .onTrailerHeader l.key l.reported

def strike (trailer : List Bytes) (l : TrailerLine) : List Bytes :=
  if l.isBlank then trailer else trailer.filter (· != l.key)

theorem dropWhile_eq_cons (h : l.isBlank = false) :
    ∃ c cs, l.value.dropWhile (· == SP) = c :: cs ∧ (c == SP) = false := by
  cases hc : l.value.dropWhile (· == SP) with
  | nil =>
    rw [dropWhile_eq_nil_iff] at hc
    rw [isBlank, all_eq_true.2 hc] at h
    cases h
  | cons c cs =>
    have hnot := head?_dropWhile_not (· == SP) l.value
    rw [hc] at hnot
    exact ⟨c, cs, rfl, by simpa using hnot⟩

theorem word_ne (h : l.isBlank = false) : l.word ≠ [] := by
  obtain ⟨c, cs, hc, hsp⟩ := dropWhile_eq_cons h
  rw [word, hc, takeWhile_cons_of_pos (by rw [bne, hsp]; rfl)]
  exact cons_ne_nil _ _

theorem value_split (l : TrailerLine) :
    l.value = l.value.takeWhile (· == SP) ++
      (l.word ++ (l.value.dropWhile (· == SP)).dropWhile (· != SP)) := by
  rw [word, takeWhile_append_dropWhile, takeWhile_append_dropWhile]

theorem tail_start (l : TrailerLine) :
    (l.value.dropWhile (· == SP)).dropWhile (· != SP) = [] ∨
      ((l.value.dropWhile (· == SP)).dropWhile (· != SP)).head? = some SP := by
  cases h : (l.value.dropWhile (· == SP)).dropWhile (· != SP) with
  | nil => exact .inl rfl
  | cons c tail =>
    have hnot := head?_dropWhile_not (· != SP) (l.value.dropWhile (· == SP))
    rw [h] at hnot
    exact .inr (by simpa using hnot)

end TrailerLine

/-! ## Runs over the trailer section -/

section Run

variable {p : Fields} {log : Log} {kept : Bytes}

theorem run_trailerName (l : TrailerLine) (hst : p.state = .bodyTrailerHeaderKeyBefore)
    (hkey : p.headerKey = []) (hpc : p.parserCloser = false) :
    (scanner .accept).Consumes ⟨p, log, kept⟩ (l.name ++ [COLON])
      ⟨{ p with state := .bodyTrailerHeaderValueBefore, headerKey := l.key }, log, []⟩ := by
  have htoken := all_eq_true.1 l.name_token
  obtain ⟨c, cs, hname⟩ := exists_cons_of_ne_nil l.name_ne
  rw [TrailerLine.key]
  rw [hname] at htoken ⊢
  let q : Fields := { p with state := .bodyTrailerHeaderKey }
  have hfirst : onByte .accept p log (some kept) c = .go q log .here := by
    simp only [q, onByte, hst, if_pos (htoken c mem_cons_self), Fields.nextState]
  have hkeep : ∀ c' ∈ cs, ∀ kept, onByte .accept q log (some kept) c' = .go q log .keep := by
    intro c' hc' kept
    have ht := htoken c' (mem_cons_of_mem c hc')
    obtain ⟨hsp, hcolon, -, -⟩ := isToken_ne ht
    simp [q, onByte, hsp, hcolon, ht]
  have hend : onByte .accept q log (some (c :: cs)) COLON =
      .go { q with
        state := .bodyTrailerHeaderValueBefore, headerKey := canonicalHeaderKey (c :: cs) } log
        .after := by
    simp [q, onByte, withSlice, orSlice, hkey, show COLON ≠ SP by decide]
  exact (run_word hfirst hkeep hst rfl hpc rfl rfl hpc).append (run_byte hend rfl rfl hpc)

theorem run_trailerSpaces {spaces : Bytes}
    (hst : p.state = .bodyTrailerHeaderValueBefore) (hpc : p.parserCloser = false)
    (hspaces : ∀ c ∈ spaces, c = SP) :
    (scanner .accept).Consumes ⟨p, log, []⟩ spaces ⟨p, log, spaces⟩ := by
  have hkeep : ∀ c ∈ spaces, ∀ kept, onByte .accept p log (some kept) c = .go p log .keep := by
    intro c hc kept
    simp only [onByte, hst, if_pos (hspaces c hc)]
  exact run_keep hkeep hst rfl hpc

theorem run_trailerLF (hst : p.state = .bodyTrailerHeaderValueLF) (hpc : p.parserCloser = false) :
    (scanner .accept).Consumes ⟨p, log, kept⟩ [LF]
      ⟨{ p with state := .bodyTrailerHeaderKeyBefore }, log, [LF]⟩ := by
  have hgo : onByte .accept p log (some kept) LF =
      .go { p with state := .bodyTrailerHeaderKeyBefore } log .here := by
    simp only [onByte, hst, if_true, Fields.nextState]
  exact run_byte hgo hst rfl hpc

theorem run_trailerValue_blank (l : TrailerLine) (hblank : l.isBlank = true)
    (hst : p.state = .bodyTrailerHeaderValueBefore) (hval : p.headerValue = [])
    (hpc : p.parserCloser = false) :
    (scanner .accept).Consumes ⟨p, log, []⟩ (l.value ++ crlf)
      ⟨{ p with state := .bodyTrailerHeaderKeyBefore, headerKey := [] },
        log ++ [onTrailerHeader p.headerKey l.value], [LF]⟩ := by
  have hspaces : ∀ c ∈ l.value, c = SP := fun c hc =>
    beq_iff_eq.1 (all_eq_true.1 hblank c hc)
  have hcr : onByte .accept p log (some l.value) CR =
      .go { p with state := .bodyTrailerHeaderValueLF, headerKey := [] }
        (log ++ [onTrailerHeader p.headerKey l.value]) .after := by
    simp [onByte, hst, withSlice, orSlice, hval, Fields.endTrailerHeader, show CR ≠ SP by decide]
  exact (run_trailerSpaces hst hpc hspaces).append
    ((run_byte hcr hst rfl hpc).append (run_trailerLF rfl hpc))

theorem run_trailerTail {word tail : Bytes}
    (hst : p.state = .bodyTrailerHeaderValue) (hval : p.headerValue = [])
    (hpc : p.parserCloser = false) (hword : word ≠ []) (htail : tail = [] ∨ tail.head? = some SP)
    (hline : CR ∉ tail) (htrailer : p.trailer ≠ []) :
    (scanner .accept).Consumes ⟨p, log, word⟩ (tail ++ crlf) ⟨{ p with
      state := .bodyTrailerHeaderKeyBefore, headerKey := []
      trailer := p.trailer.filter (· != p.headerKey) },
      log ++ [onTrailerHeader p.headerKey word], [LF]⟩ := by
  let q (value : Bytes) : Fields := { p with headerValue := value }
  let q' : Fields := { p with
    state := .bodyTrailerHeaderValueLF, headerKey := []
    trailer := p.trailer.filter (· != p.headerKey) }
  have hq : p = q [] := by rw [← hval]
  have hend : ∀ value kept, value = word ∨ value = [] ∧ kept = word →
      onByte .accept (q value) log (some kept) CR =
        .go q' (log ++ [onTrailerHeader p.headerKey word]) .after := by
    intro value kept hvalue
    have hslice : orSlice value (some kept) = some word := by
      rcases hvalue with rfl | ⟨rfl, rfl⟩
      · exact if_neg hword
      · exact if_pos rfl
    simp [q, q', onByte, hst, hval, hslice, withSlice, htrailer, Fields.endTrailerHeader,
      show CR ≠ SP by decide]
  rcases htail with rfl | hstart
  · have hcr := hend [] word (.inr ⟨rfl, rfl⟩)
    rw [← hq] at hcr
    exact (run_byte hcr hst rfl hpc).append (run_trailerLF rfl hpc)
  · obtain ⟨tail, rfl⟩ : ∃ t, tail = SP :: t := by
      cases tail with
      | nil => cases hstart
      | cons c t => exact ⟨t, by rw [Option.some.inj hstart]⟩
    have hfix : onByte .accept p log (some word) SP = .go (q word) log .keep := by
      simp [q, onByte, hst, withSlice, orSlice, hval]
    have hkeep : ∀ c ∈ tail, ∀ kept, onByte .accept (q word) log (some kept) c =
        .go (q word) log .keep := by
      intro c hc kept
      have hcr : c ≠ CR := by
        rintro rfl
        exact hline (mem_cons_of_mem _ hc)
      by_cases hsp : c = SP
      · simp [q, onByte, hst, hsp, withSlice, orSlice, hword]
      · simp [q, onByte, hst, hsp, hcr]
    refine ((run_byte hfix hst rfl hpc).append (run_keep hkeep hst rfl hpc)).append ?_
    exact (run_byte (hend word _ (.inl rfl)) hst rfl hpc).append (run_trailerLF rfl hpc)

theorem run_trailerValue_word (l : TrailerLine) (hblank : l.isBlank = false)
    (hst : p.state = .bodyTrailerHeaderValueBefore) (hval : p.headerValue = [])
    (hpc : p.parserCloser = false) (htrailer : p.trailer ≠ []) :
    (scanner .accept).Consumes ⟨p, log, []⟩ (l.value ++ crlf) ⟨{ p with
      state := .bodyTrailerHeaderKeyBefore, headerKey := []
      trailer := p.trailer.filter (· != p.headerKey) },
      log ++ [onTrailerHeader p.headerKey l.word], [LF]⟩ := by
  have hspaces : ∀ c ∈ l.value.takeWhile (· == SP), c = SP :=
    fun c hc => beq_iff_eq.1 (all_eq_true.1 all_takeWhile c hc)
  have hmem : ∀ c ∈ l.word, c ≠ SP ∧ c ≠ CR := by
    intro c hc
    refine ⟨bne_iff_ne.1 (all_eq_true.1 all_takeWhile c hc), (l.value_line c ?_).1⟩
    rw [l.value_split]
    exact mem_append_right _ (mem_append_left _ hc)
  have htail := TrailerLine.tail_start l
  have hline : CR ∉ (l.value.dropWhile (· == SP)).dropWhile (· != SP) := by
    intro hcr
    refine (l.value_line CR ?_).1 rfl
    rw [l.value_split]
    exact mem_append_right _ (mem_append_right _ hcr)
  rw [l.value_split, append_assoc, append_assoc]
  refine (run_trailerSpaces hst hpc hspaces).append ?_
  obtain ⟨c, cs, hword⟩ := exists_cons_of_ne_nil (TrailerLine.word_ne hblank)
  rw [hword] at hmem ⊢
  let q : Fields := { p with state := .bodyTrailerHeaderValue }
  have hfirst : ∀ kept, onByte .accept p log (some kept) c = .go q log .here := by
    intro kept
    obtain ⟨hsp, hcr⟩ := hmem c mem_cons_self
    simp only [q, onByte, hst, if_neg hsp, if_neg hcr, Fields.nextState]
  have hkeep : ∀ c' ∈ cs, ∀ kept, onByte .accept q log (some kept) c' = .go q log .keep := by
    intro c' hc' kept
    obtain ⟨hsp, hcr⟩ := hmem c' (mem_cons_of_mem c hc')
    exact (if_neg hsp).trans (if_neg hcr)
  exact (run_word (hfirst _) hkeep hst rfl hpc rfl rfl hpc).append
    (run_trailerTail rfl hval hpc (cons_ne_nil _ _) htail hline htrailer)

theorem run_trailerLine (l : TrailerLine) (hp : p.At .bodyTrailerHeaderKeyBefore)
    (htrailer : p.trailer ≠ []) :
    (scanner .accept).Consumes ⟨p, log, kept⟩ l.text
      ⟨{ p with trailer := l.strike p.trailer }, log ++ [l.call], [LF]⟩ := by
  obtain ⟨hst, hkey, hval, hpc⟩ := hp
  have hsplit : l.text = l.name ++ [COLON] ++ (l.value ++ crlf) := by
    simp [TrailerLine.text]
  let q : Fields := { p with state := .bodyTrailerHeaderValueBefore, headerKey := l.key }
  rw [hsplit, TrailerLine.call, hst, hkey]
  refine (run_trailerName l hst hkey hpc).append ?_
  cases hblank : l.isBlank with
  | true =>
    rw [TrailerLine.strike, TrailerLine.reported, if_pos hblank, if_pos hblank]
    exact run_trailerValue_blank (p := q) l hblank rfl hval hpc
  | false =>
    have hno : ¬ l.isBlank = true := by rw [hblank]; exact Bool.false_ne_true
    rw [TrailerLine.strike, TrailerLine.reported, if_neg hno, if_neg hno]
    exact run_trailerValue_word (p := q) l hblank rfl hval hpc htrailer

def Expecting (trailer : List Bytes) : List TrailerLine → Prop
  | [] => True
  | l :: lines => trailer ≠ [] ∧ Expecting (l.strike trailer) lines

theorem run_trailerLines (log : Log) (kept : Bytes) (lines : List TrailerLine)
    (hp : p.At .bodyTrailerHeaderKeyBefore) (h : Expecting p.trailer lines) :
    ∃ kept', (scanner .accept).Consumes ⟨p, log, kept⟩ (lines.flatMap TrailerLine.text)
      ⟨{ p with trailer := lines.foldl TrailerLine.strike p.trailer },
        log ++ lines.map TrailerLine.call, kept'⟩ := by
  induction lines generalizing p log kept with
  | nil =>
    refine ⟨kept, ?_⟩
    rw [map_nil, append_nil]
    exact (scanner .accept).consumes_nil _
  | cons l lines ih =>
    obtain ⟨kept', hrun⟩ := ih (p := { p with trailer := l.strike p.trailer }) (log ++ [l.call])
      [LF] ⟨hp.state, hp.key, hp.value, hp.closer⟩ h.2
    rw [append_assoc] at hrun
    exact ⟨kept', (run_trailerLine l hp h.1).append hrun⟩

theorem run_trailerEnd (hst : p.state = .bodyTrailerHeaderKeyBefore) (hpc : p.parserCloser = false)
    (htrailer : p.trailer = []) :
    (scanner .accept).Consumes ⟨p, log, kept⟩ crlf ⟨p.ended, log ++ [onComplete], []⟩ := by
  let q : Fields := { p with state := .tailLF }
  have htoken : ¬ isToken CR = true := fun h => (isToken_ne h).2.2.1 rfl
  have hcr : onByte .accept p log (some kept) CR = .go q log .after := by
    simp [q, onByte, hst, htoken, htrailer]
  have hlf : onByte .accept q log (some []) LF =
      .go p.ended (log ++ [onComplete]) .after := by
    simp only [onByte, endMessage_accept (p := q) (fun h => by cases h) hpc]
    rfl
  exact (run_byte hcr hst rfl hpc).append (run_byte hlf rfl rfl hpc)

theorem run_trailerEnd_missing (rest : Bytes) (hst : p.state = .bodyTrailerHeaderKeyBefore)
    (hpc : p.parserCloser = false) (htrailer : p.trailer ≠ []) :
    (scanner .accept).run ⟨p, log, kept⟩ (crlf ++ rest) =
      .error ⟨p, log, some .trailerExpected⟩ := by
  have htoken : ¬ isToken CR = true := fun h => (isToken_ne h).2.2.1 rfl
  have hcr : onByte .accept p log (some kept) CR = .fail p log .trailerExpected := by
    simp only [onByte, hst, if_neg htoken, if_true, if_pos htrailer]
  exact run_fail _ hcr hst rfl hpc

end Run

/-! ## Which names are struck off -/

variable {lines : List TrailerLine} {trailer : List Bytes}

namespace TrailerLine

theorem mem_strike {name : Bytes} :
    name ∈ l.strike trailer ↔ name ∈ trailer ∧ (l.isBlank = false → l.key ≠ name) := by
  unfold strike
  cases l.isBlank with
  | true => simp
  | false =>
    simp only [Bool.false_eq_true, if_false, mem_filter, bne_iff_ne, forall_const]
    exact and_congr_right fun _ => ne_comm

theorem mem_foldl_strike {name : Bytes} :
    name ∈ lines.foldl strike trailer ↔
      name ∈ trailer ∧ ∀ l ∈ lines, l.isBlank = false → l.key ≠ name := by
  induction lines generalizing trailer with
  | nil => simp
  | cons l lines ih => rw [foldl_cons, ih, mem_strike, forall_mem_cons, and_assoc]

end TrailerLine

theorem expecting_of_missing {name : Bytes} (hname : name ∈ trailer)
    (hmissing : name ∉ lines.map TrailerLine.key) :
    Expecting trailer lines := by
  induction lines generalizing trailer with
  | nil => trivial
  | cons l lines ih =>
    rw [map_cons, mem_cons, not_or] at hmissing
    refine ⟨ne_nil_of_mem hname, ih ?_ hmissing.2⟩
    exact TrailerLine.mem_strike.2 ⟨hname, fun _ h => hmissing.1 h.symm⟩

theorem expecting_of_nodup (hnodup : (lines.map TrailerLine.key).Nodup)
    (hmem : ∀ name ∈ lines.map TrailerLine.key, name ∈ trailer) : Expecting trailer lines := by
  induction lines generalizing trailer with
  | nil => trivial
  | cons l lines ih =>
    rw [map_cons, nodup_cons] at hnodup
    rw [map_cons, forall_mem_cons] at hmem
    refine ⟨ne_nil_of_mem hmem.1, ih hnodup.2 fun name hname => ?_⟩
    refine TrailerLine.mem_strike.2 ⟨hmem.2 name hname, ?_⟩
    rintro - rfl
    exact hnodup.1 hname

variable {names : List Bytes}

/-- With one line for each name, all are struck off if and only if no line is blank. -/
theorem foldl_strike_eq_nil_iff (hnodup : names.Nodup)
    (hperm : (lines.map TrailerLine.key).Perm names) :
    lines.foldl TrailerLine.strike names = [] ↔ ∀ l ∈ lines, l.isBlank = false := by
  rw [eq_nil_iff_forall_not_mem]
  constructor
  · intro hnil l hl
    by_contra hblank
    have hkey : l.key ∈ names := hperm.mem_iff.1 (mem_map_of_mem hl)
    refine hnil l.key (TrailerLine.mem_foldl_strike.2 ⟨hkey, fun l' hl' hblank' hsame => hblank ?_⟩)
    -- the line that strikes the name off is the line itself
    have hinj := inj_on_of_nodup_map (hperm.nodup_iff.2 hnodup) hl' hl hsame
    exact hinj ▸ hblank'
  · intro hwords name hname
    obtain ⟨hmem, hall⟩ := TrailerLine.mem_foldl_strike.1 hname
    obtain ⟨l, hl, hkey⟩ := mem_map.1 (hperm.mem_iff.2 hmem)
    exact hall l hl (hwords l hl) hkey

/-! ## The values that are reported -/

namespace TrailerLine

theorem isBlank_eq_false_iff : l.isBlank = false ↔ trimSpaces l.value ≠ [] := by
  constructor
  · intro h hnil
    obtain ⟨c, cs, hc, hsp⟩ := dropWhile_eq_cons h
    rw [trimSpaces, hc, rdropWhile_eq_nil_iff] at hnil
    exact Bool.false_ne_true (hsp.symm.trans (hnil c mem_cons_self))
  · intro hne
    by_contra hblank
    rw [Bool.not_eq_false] at hblank
    rw [trimSpaces, dropWhile_eq_nil_iff.2 (all_eq_true.1 hblank)] at hne
    exact hne (rdropWhile_nil _)

theorem sp_not_mem_word (l : TrailerLine) : SP ∉ l.word := by
  intro h
  exact absurd (mem_takeWhile_imp h) (by decide)

theorem trim_word_iff (l : TrailerLine) :
    trimSpaces l.word = trimSpaces l.value ↔ SP ∉ trimSpaces l.value := by
  have htrim : trimSpaces l.word = l.word := by
    have hdrop : l.word.dropWhile (· == SP) = l.word := by
      refine dropWhile_eq_self_iff.2 fun hl hsp => l.sp_not_mem_word ?_
      exact beq_iff_eq.1 hsp ▸ getElem_mem hl
    have hrdrop := rdropWhile_word [] l.sp_not_mem_word
    rw [trimSpaces, hdrop]
    rwa [append_nil, rdropWhile_nil, append_nil] at hrdrop
  have hvalue : trimSpaces l.value =
      (l.word ++ (l.value.dropWhile (· == SP)).dropWhile (· != SP)).rdropWhile (· == SP) := by
    rw [trimSpaces, word, takeWhile_append_dropWhile]
  rw [htrim, hvalue]
  constructor
  · intro h
    rw [← h]
    exact l.sp_not_mem_word
  · intro h
    exact (rdropWhile_eq_word l.sp_not_mem_word l.tail_start h).symm

end TrailerLine

/-! ## A message with a trailer section -/

theorem foldlM_addTrailer_nodup {acc : List Bytes} (hnodup : (acc ++ names).Nodup)
    (hallowed : ∀ name ∈ names, Fields.isFramingKey name = false) :
    names.foldlM Fields.addTrailer acc = .ok (acc ++ names) := by
  induction names generalizing acc with
  | nil =>
    rw [append_nil]
    rfl
  | cons name names ih =>
    have hnew : acc.contains name = false := by
      rw [← Bool.not_eq_true, contains_iff_mem]
      intro hmem
      exact (nodup_append.1 hnodup).2.2 name hmem name mem_cons_self rfl
    rw [forall_mem_cons] at hallowed
    have hadd : Fields.addTrailer acc name = .ok (acc ++ [name]) := by
      rw [Fields.addTrailer, hallowed.1, hnew]
      rfl
    have hnext : acc ++ name :: names = acc ++ [name] ++ names := by simp
    rw [hnext] at hnodup ⊢
    rw [foldlM_cons, hadd]
    exact ih hnodup hallowed.2

theorem run_blank_announced {enc : Bytes} (kept : Bytes) (h : p.Kept log)
    (hst : p.state = .headerKeyBefore) (hpc : p.parserCloser = false) (htrailer : p.trailer = [])
    (hte : valuesOf transferEncodingHeader (headLines log) = [enc]) (henc : isChunked enc)
    (hnodup : (announced (headLines log)).Nodup)
    (hallowed : ∀ name ∈ announced (headLines log), Fields.isFramingKey name = false) :
    ∃ header, (scanner .accept).Consumes ⟨p, log, kept⟩ crlf ⟨{ p with
      state := .bodyChunkSizeBefore, header := header, chunked := true, contentLength := -1
      headerExists := false, trailer := announced (headLines log) },
      log ++ [onContentLength (-1)], []⟩ := by
  have hfold : (announced (headLines log)).foldlM Fields.addTrailer [] =
      .ok (announced (headLines log)) := foldlM_addTrailer_nodup hnodup hallowed
  rcases endHeaders_announced h hte henc with ⟨names, header, hok, hgo⟩ | ⟨e, q, log', herr, -⟩
  swap
  · rw [hfold] at herr
    cases herr
  obtain rfl : announced (headLines log) = names := Except.ok.inj (hfold.symm.trans hok)
  have hsame : (if announced (headLines log) = [] then p.trailer else announced (headLines log)) =
      announced (headLines log) := by
    split
    · next hnil => rw [htrailer, hnil]
    · rfl
  rw [hsame] at hgo
  generalize announced (headLines log) = names at hgo
  refine ⟨header, ?_⟩
  let q : Fields := { p with
    state := .headerOverLF, header := header, chunked := true, contentLength := -1
    trailer := names }
  have hcr : onByte .accept p log (some kept) CR =
      .go q (log ++ [onContentLength (-1)]) .after := by
    rw [onByte_blank hst, hgo, Fields.nextState, hst]
  have hlf : onByte .accept q (log ++ [onContentLength (-1)]) (some []) LF =
      .go { q with state := .bodyChunkSizeBefore, headerExists := false }
        (log ++ [onContentLength (-1)]) .after := rfl
  exact (run_byte hcr hst rfl hpc).append (run_byte hlf rfl rfl hpc)

def trailedBody (chunks : List Chunk) (lines : List TrailerLine) : Bytes :=
  chunks.flatMap Chunk.serialize ++
    (ascii "0" ++ (crlf ++ (lines.flatMap TrailerLine.text ++ (crlf ++ []))))

def trailedCalls (chunks : List Chunk) (lines : List TrailerLine) : Log :=
  (chunks.map fun ch => .onBody ch.data) ++ lines.map TrailerLine.call

variable {chunks : List Chunk}

/-- A run over chunks and a trailer section: the message is complete if every name has been struck
off. -/
theorem run_trailedBody (log : Log) (kept : Bytes) (hp : p.At .bodyChunkSizeBefore)
    (hexp : Expecting p.trailer lines)
    (hsized : ∀ ch ∈ chunks, ch.data.length < 2 ^ 62) :
    (lines.foldl TrailerLine.strike p.trailer = [] →
      ∃ q, (scanner .accept).run ⟨p, log, kept⟩ (trailedBody chunks lines) =
        .ok (⟨q, log ++ trailedCalls chunks lines ++ [onComplete], []⟩, [])) ∧
    (lines.foldl TrailerLine.strike p.trailer ≠ [] →
      ∃ q, (scanner .accept).run ⟨p, log, kept⟩ (trailedBody chunks lines) =
        .error ⟨q, log ++ trailedCalls chunks lines, some .trailerExpected⟩) := by
  obtain ⟨hst, hkey, hval, hpc⟩ := hp
  obtain ⟨m, kept', hchunks⟩ := run_chunks hst hpc log kept hsized
  have hcalls : log ++ trailedCalls chunks lines =
      log ++ (chunks.map fun ch => Callback.onBody ch.data) ++ lines.map TrailerLine.call :=
    (append_assoc _ _ _).symm
  rw [trailedBody, hchunks, hcalls]
  generalize log ++ (chunks.map fun ch => Callback.onBody ch.data) = log'
  by_cases hnil : p.trailer = []
  · -- nothing is announced, so there is no line
    obtain rfl : lines = [] := by
      cases lines with
      | nil => rfl
      | cons l lines => exact absurd hnil hexp.1
    refine ⟨fun _ => ⟨{ p with chunkSize := 0 }.ended, ?_⟩, fun h => absurd hnil h⟩
    have hlast := run_lastChunk (p := { p with chunkSize := m }) hst hpc log' kept' hnil
    rw [flatMap_nil, nil_append, append_nil crlf, ← append_assoc, hlast.run, map_nil, append_nil]
  · let q : Fields := { p with chunkSize := 0, state := .bodyTrailerHeaderKeyBefore }
    obtain ⟨kept'', hlines⟩ := run_trailerLines (p := q) log' [] lines
      ⟨rfl, hkey, hval, hpc⟩ hexp
    have hzero := run_zeroChunk (p := { p with chunkSize := m }) hst hpc log' kept'
    rw [if_pos hnil] at hzero
    rw [← append_assoc (ascii "0"), hzero, hlines]
    generalize hleft : lines.foldl TrailerLine.strike p.trailer = left
    refine ⟨?_, fun hne => ⟨{ q with trailer := left }, ?_⟩⟩
    · rintro rfl
      refine ⟨{ q with trailer := [] }.ended, ?_⟩
      exact (run_trailerEnd (p := { q with trailer := [] }) rfl hpc rfl).run
    · exact run_trailerEnd_missing [] rfl hpc hne

/-- A call with the spaces around the value of a trailer set aside. -/
def Callback.trimTrailer : Callback → Callback
  | .onTrailerHeader key value => .onTrailerHeader key (trimSpaces value)
  | cb => cb

/-- The calls that report chunks and trailers as they were sent, and the end of the message. -/
def sentCalls (chunks : List Chunk) (lines : List TrailerLine) : Log :=
  .onContentLength (-1) :: ((chunks.map fun ch => .onBody ch.data) ++
    (lines.map fun l => .onTrailerHeader l.key (trimSpaces l.value)) ++ [.onComplete])

theorem trimTrailer_calls_iff (hwords : ∀ l ∈ lines, l.isBlank = false) :
    (.onContentLength (-1) :: (trailedCalls chunks lines ++ [.onComplete])).map trimTrailer =
      sentCalls chunks lines ↔ ∀ l ∈ lines, SP ∉ trimSpaces l.value := by
  have hcall : ∀ l ∈ lines, (l.call.trimTrailer = .onTrailerHeader l.key (trimSpaces l.value) ↔
      SP ∉ trimSpaces l.value) := by
    intro l hl
    have hno : ¬ l.isBlank = true := by rw [hwords l hl]; exact Bool.false_ne_true
    rw [← l.trim_word_iff, TrailerLine.call, TrailerLine.reported, if_neg hno, trimTrailer]
    simp
  have hmap : (.onContentLength (-1) :: (trailedCalls chunks lines ++ [.onComplete])).map
      trimTrailer = .onContentLength (-1) :: ((chunks.map fun ch => .onBody ch.data) ++
        (lines.map fun l => l.call.trimTrailer) ++ [.onComplete]) := by
    rw [trailedCalls, map_cons, map_append, map_append, map_map, map_map]
    rfl
  rw [hmap, sentCalls, cons_inj_right, append_cancel_right_eq, append_cancel_left_eq, map_inj_left]
  exact forall₂_congr hcall

/-- The hypotheses of this section: a parser in front of the blank line of a chunked message that
announces distinct trailers which are allowed. -/
structure Announces (isClient : Bool) (r : Result) (names : List Bytes) : Prop where
  ready : r.parser.Ready .accept isClient r.log
  state : r.parser.state = .headerKeyBefore
  kept : r.parser.Kept r.log
  trailer : r.parser.trailer = []
  chunked : ∃ enc, valuesOf transferEncodingHeader (headLines r.log) = [enc] ∧ isChunked enc
  announces : announced (headLines r.log) = names
  nodup : names.Nodup
  allowed : ∀ name ∈ names, Fields.isFramingKey name = false

theorem onComplete_not_mem (chunks : List Chunk) (lines : List TrailerLine) :
    onComplete ∉ onContentLength (-1) :: trailedCalls chunks lines := by
  simp [trailedCalls, TrailerLine.call]

theorem Announces.feed_cases {isClient : Bool} {readLimit : Int} {segs : List Bytes} {r : Result}
    (h : Announces isClient r names) (hsegs : segs.flatten = crlf ++ trailedBody chunks lines)
    (hlimit : Parser.InLimit .accept readLimit r.parser r.log segs) (hexp : Expecting names lines) :
    let r' := r.parser.feed .accept readLimit r.log segs
    ((∀ ch ∈ chunks, ch.data.length < 2 ^ 62) ∧ lines.foldl TrailerLine.strike names = [] ∧
      r'.err = none ∧
      r'.log = r.log ++ .onContentLength (-1) :: (trailedCalls chunks lines ++ [.onComplete])) ∨
    (¬ ((∀ ch ∈ chunks, ch.data.length < 2 ^ 62) ∧ lines.foldl TrailerLine.strike names = []) ∧
      r'.err ≠ none ∧ ∃ calls : Log, r'.log = r.log ++ calls ∧ .onComplete ∉ calls) := by
  have hm := Parser.feed_matches_flatten accept_neverUpgrades h.ready hlimit
  have hcfg : r.parser.cfg r.log = (⟨r.parser.toFields, r.log, r.parser.cache⟩, []) := by
    rw [Parser.cfg, Fields.bodyLen, h.state]
  have hinv := h.ready.wf.inv.at h.state
  obtain ⟨enc, hte, henc⟩ := h.chunked
  obtain ⟨header, hblank⟩ := run_blank_announced r.parser.cache h.kept h.state h.ready.closer
    h.trailer hte henc (h.announces ▸ h.nodup) (h.announces ▸ h.allowed)
  rw [h.announces] at hblank
  let q : Fields := { r.parser.toFields with
    state := .bodyChunkSizeBefore, header := header, chunked := true, contentLength := -1
    headerExists := false, trailer := names }
  have hrun : (scanner .accept).feed (r.parser.cfg r.log) segs.flatten =
      (scanner .accept).run ⟨q, r.log ++ [.onContentLength (-1)], []⟩
        (trailedBody chunks lines) := by
    rw [hcfg, hsegs]
    exact hblank _
  rw [hrun] at hm
  have refused : ∀ e calls, (scanner .accept).run ⟨q, r.log ++ [.onContentLength (-1)], []⟩
      (trailedBody chunks lines) = .error e → e.log = r.log ++ calls → .onComplete ∉ calls →
      (r.parser.feed .accept readLimit r.log segs).err ≠ none ∧ ∃ calls : Log,
        (r.parser.feed .accept readLimit r.log segs).log = r.log ++ calls ∧
          .onComplete ∉ calls := by
    intro e calls he hlog hno
    obtain ⟨hlog', herr, hne⟩ := hm.error e he
    exact ⟨herr ▸ hne, calls, hlog'.trans hlog, hno⟩
  by_cases hsized : ∀ ch ∈ chunks, ch.data.length < 2 ^ 62
  · obtain ⟨hok, herr⟩ := run_trailedBody (p := q) (r.log ++ [.onContentLength (-1)]) []
      ⟨rfl, hinv.headerKey rfl, hinv.headerValue rfl, h.ready.closer⟩ hexp hsized
    by_cases hnil : lines.foldl TrailerLine.strike names = []
    · obtain ⟨q', hq'⟩ := hok hnil
      rw [hm.ok _ _ hq']
      exact .inl ⟨hsized, hnil, rfl, by simp⟩
    · obtain ⟨q', hq'⟩ := herr hnil
      refine .inr ⟨fun hboth => hnil hboth.2, ?_⟩
      exact refused _ _ hq' (append_assoc _ _ _) (onComplete_not_mem chunks lines)
  · obtain ⟨e, bodies, he, hlog⟩ := run_chunks_refused (p := q) rfl h.ready.closer
      (r.log ++ [.onContentLength (-1)]) [] _ hsized
    refine .inr ⟨fun hboth => hsized hboth.1, ?_⟩
    exact refused e _ he (hlog.trans (append_assoc _ _ _)) (by simp)

/-- Whatever has been fed to a new parser, in whatever pieces: if it is in front of the blank line
of a chunked message that announces distinct trailers which are allowed, then a trailer section with
one line for each name is reported as it was sent if and only if no value is blank or has a space
inside (and no chunk is too long), and a section in which a name is missing is refused. -/
theorem trailers_reported_iff (isClient : Bool) (readLimit : Int) (segs segs' : List Bytes)
    (chunks : List Chunk) (lines : List TrailerLine) {enc : Bytes} {r r' : Result}
    (hr : r = (newParser isClient).feed .accept readLimit [] segs)
    (hr' : r' = r.parser.feed .accept readLimit r.log segs')
    (hbefore : r.err = none ∧ r.parser.state = .headerKeyBefore)
    (hchunked : valuesOf transferEncodingHeader (headLines r.log) = [enc] ∧ isChunked enc)
    (hnodup : (announced (headLines r.log)).Nodup)
    (hallowed : ∀ name ∈ announced (headLines r.log), Fields.isFramingKey name = false)
    (hsegs : segs'.flatten = crlf ++ trailedBody chunks lines)
    (hlimit : Parser.InLimit .accept readLimit r.parser r.log segs') :
    ((lines.map TrailerLine.key).Perm (announced (headLines r.log)) →
      ((r'.err = none ∧ ∃ calls : Log, r'.log = r.log ++ calls ∧
        calls.map Callback.trimTrailer = sentCalls chunks lines) ↔
      (∀ ch ∈ chunks, ch.data.length < 2 ^ 62) ∧
        ∀ l ∈ lines, trimSpaces l.value ≠ [] ∧ SP ∉ trimSpaces l.value)) ∧
    ((∃ name ∈ announced (headLines r.log), name ∉ lines.map TrailerLine.key) →
      r'.err ≠ none ∧ ∃ calls : Log, r'.log = r.log ++ calls ∧ .onComplete ∉ calls) := by
  have h : Announces isClient r (announced (headLines r.log)) := by
    rw [hr] at hbefore
    have hready := Parser.feed_ready accept_neverUpgrades (newParser_ready .accept isClient [])
      hbefore.1
    have hlined := Parser.feed_lined (fun _ => ⟨rfl, holds_nil⟩) segs hbefore.1
    rw [← hr] at hready hlined hbefore
    have hin : r.parser.state.inHead = true := by rw [hbefore.2]; rfl
    refine ⟨hready.1, hbefore.2, hlined hin, ?_, ⟨enc, hchunked⟩, rfl, hnodup, hallowed⟩
    have hun : (r.parser.cfg r.log).1.Unexpecting := by
      refine (scanner .accept).run_inv
        (fun hk hn => Cfg.unexpecting_step hk hn) ?_ hready.2
      rw [cfg_newParser]
      exact fun _ => rfl
    rw [Parser.cfg, Fields.bodyLen, hbefore.2] at hun
    exact hun hin
  subst hr'
  refine ⟨fun hperm => ?_, ?_⟩
  · have hexp :=
      expecting_of_nodup (hperm.nodup_iff.2 hnodup) fun name hname => hperm.mem_iff.1 hname
    have hall := foldl_strike_eq_nil_iff hnodup hperm
    have hblank : (∀ l ∈ lines, l.isBlank = false) ↔ ∀ l ∈ lines, trimSpaces l.value ≠ [] :=
      forall₂_congr fun l _ => TrailerLine.isBlank_eq_false_iff
    rcases h.feed_cases hsegs hlimit hexp with ⟨hsized, hnil, herr, hlog⟩ | ⟨hnot, herr, -⟩
    · have hwords := hall.1 hnil
      rw [hlog]
      constructor
      · rintro ⟨-, calls, hcalls, hsent⟩
        rw [← append_cancel_left hcalls, trimTrailer_calls_iff hwords] at hsent
        exact ⟨hsized, fun l hl => ⟨hblank.1 hwords l hl, hsent l hl⟩⟩
      · rintro ⟨-, hvalues⟩
        exact ⟨herr, _, rfl, (trimTrailer_calls_iff hwords).2 fun l hl => (hvalues l hl).2⟩
    · refine iff_of_false (fun hok => herr hok.1) fun hcond => hnot ⟨hcond.1, ?_⟩
      exact hall.2 (hblank.2 fun l hl => (hcond.2 l hl).1)
  · rintro ⟨name, hname, hmissing⟩
    rcases h.feed_cases hsegs hlimit (expecting_of_missing hname hmissing) with
      ⟨-, hnil, -, -⟩ | ⟨-, hrefused⟩
    · have hmem : name ∈ lines.foldl TrailerLine.strike (announced (headLines r.log)) := by
        refine TrailerLine.mem_foldl_strike.2 ⟨hname, fun l hl _ hkey => hmissing ?_⟩
        exact hkey ▸ mem_map_of_mem hl
      rw [hnil] at hmem
      cases hmem
    · exact hrefused

def trailerLine (name value : Bytes) (hne : name ≠ []) (htoken : name.all isToken = true)
    (hline : value.all (fun c => c != CR && c != LF) = true) : TrailerLine :=
  ⟨name, value, hne, htoken, fun c hc => by simpa using all_eq_true.1 hline c hc⟩

def trailedHead : Bytes :=
  ascii "POST / HTTP/1.1\r\nTransfer-Encoding: chunked\r\nTrailer: Md5,Size\r\n"

def behindHead : Result where
  parser := { newParser false with
    state := .headerKeyBefore, headerExists := true
    header := [(transferEncodingHeader, [ascii "chunked"]), (trailerHeader, [ascii "Md5,Size"])] }
  log := [.onMethod (ascii "POST"), .onURL (ascii "/"), .onProto (ascii "HTTP/1.1"),
    .onHeader transferEncodingHeader (ascii "chunked"), .onHeader trailerHeader (ascii "Md5,Size")]
  err := none
  recovered := false

theorem feed_trailedHead :
    behindHead = (newParser false).feed .accept 0 [] [trailedHead] := by
  decide +kernel

/-- Two trailers, in the other order and cut within a value. -/
theorem trailers_reported_md5_size :
    let r := (newParser false).feed .accept 0 [] [trailedHead]
    let r' := r.parser.feed .accept 0 r.log
      [ascii "\r\n4\r\nbody\r\n0\r\nsize: 4 \r\nMd5:84", ascii "1a\r\n\r\n"]
    r'.err = none ∧ ∃ calls : Log, r'.log = r.log ++ calls ∧ calls.map Callback.trimTrailer =
      [.onContentLength (-1), .onBody (ascii "body"), .onTrailerHeader (ascii "Size") (ascii "4"),
        .onTrailerHeader (ascii "Md5") (ascii "841a"), .onComplete] := by
  rw [← feed_trailedHead]
  let chunk : Chunk := ⟨ascii "4", ascii "body", by decide, by decide, by decide⟩
  let size := trailerLine (ascii "size") (ascii " 4 ") (by decide) (by decide) (by decide)
  let md5 := trailerLine (ascii "Md5") (ascii "841a") (by decide) (by decide) (by decide)
  exact ((trailers_reported_iff false 0 [trailedHead]
    [ascii "\r\n4\r\nbody\r\n0\r\nsize: 4 \r\nMd5:84", ascii "1a\r\n\r\n"] [chunk] [size, md5]
    feed_trailedHead rfl ⟨rfl, rfl⟩ ⟨rfl, rfl⟩ (by decide +kernel) (by decide +kernel) rfl
    (.inr (by decide +kernel))).1 (by decide +kernel)).2 (by decide +kernel)

/-- A value with a space inside is cut, and an empty value makes the message fail. -/
theorem trailers_cut_or_refused :
    let r := (newParser false).feed .accept 0 [] [trailedHead]
    let size := trailerLine (ascii "Size") (ascii " 4") (by decide) (by decide) (by decide)
    (let md5 := trailerLine (ascii "Md5") (ascii " a b") (by decide) (by decide) (by decide)
     let cut := r.parser.feed .accept 0 r.log [crlf ++ trailedBody [] [md5, size]]
     cut.err = none ∧ cut.log = r.log ++ [.onContentLength (-1),
       .onTrailerHeader (ascii "Md5") (ascii "a"), .onTrailerHeader (ascii "Size") (ascii "4"),
       .onComplete] ∧
     ¬ ∃ calls : Log, cut.log = r.log ++ calls ∧
       calls.map Callback.trimTrailer = sentCalls [] [md5, size]) ∧
    (let md5 := trailerLine (ascii "Md5") [] (by decide) (by decide) (by decide)
     let refused := r.parser.feed .accept 0 r.log [crlf ++ trailedBody [] [md5, size]]
     refused.err = some .trailerExpected ∧ refused.log = r.log ++ [.onContentLength (-1),
       .onTrailerHeader (ascii "Md5") [], .onTrailerHeader (ascii "Size") (ascii "4")]) := by
  rw [← feed_trailedHead]
  intro r size
  have hcut : (r.parser.feed .accept 0 r.log [crlf ++ trailedBody []
      [trailerLine (ascii "Md5") (ascii " a b") (by decide) (by decide) (by decide), size]]).log =
      r.log ++ [.onContentLength (-1), .onTrailerHeader (ascii "Md5") (ascii "a"),
        .onTrailerHeader (ascii "Size") (ascii "4"), .onComplete] := by decide +kernel
  refine ⟨⟨by decide +kernel, hcut, ?_⟩, by decide +kernel, by decide +kernel⟩
  rintro ⟨calls, hlog, hsent⟩
  rw [← append_cancel_left (hcut.symm.trans hlog)] at hsent
  revert hsent
  decide +kernel

end Nbio.Http
