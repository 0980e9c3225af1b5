import Nbio.Http.Calls

/-!
# The names of header lines

The parser takes the name of a header line up to the first space (`headerKey` is set there), but it
goes on to accept the bytes of a token, and more spaces, up to the colon.  So of `Foo Bar: x` it
reports the name `Foo`.

`ReadingLines` follows the text of a header block through the states of the parser: what has been
read are whole lines, each reported by one call of `OnHeader`, and a part of the next.
-/

namespace Nbio.Http

open Nbio.Go Nbio.Lib List

/-! ## The lines of a text -/

/-- The lines that a text completes if `line` has been read of the first.  The byte in front of the
line feed, which is the carriage return, is not part of a line. -/
def splitLines (line : Bytes) : Bytes → List Bytes
  | [] => []
  | c :: rest =>
    if c = LF then line.dropLast :: splitLines [] rest else splitLines (line ++ [c]) rest

def linesOf (text : Bytes) : List Bytes := splitLines [] text

theorem splitLines_none {text : Bytes} (line : Bytes) (h : LF ∉ text) :
    splitLines line text = [] := by
  induction text generalizing line with
  | nil => rfl
  | cons c text ih =>
    rw [mem_cons, not_or] at h
    rw [splitLines, if_neg (Ne.symm h.1)]
    exact ih _ h.2

theorem splitLines_line {text : Bytes} (line rest : Bytes) (h : LF ∉ text) :
    splitLines line (text ++ (crlf ++ rest)) = (line ++ text) :: splitLines [] rest := by
  induction text generalizing line with
  | nil =>
    change splitLines line (CR :: LF :: rest) = _
    rw [splitLines, if_neg (by decide), splitLines, if_pos rfl, dropLast_concat, append_nil]
  | cons c text ih =>
    rw [mem_cons, not_or] at h
    rw [cons_append, splitLines, if_neg (Ne.symm h.1), ih _ h.2, append_assoc, singleton_append]

def trimSpaces (text : Bytes) : Bytes := (text.dropWhile (· == SP)).rdropWhile (· == SP)

theorem rdropWhile_word {word : Bytes} (tail : Bytes) (hword : SP ∉ word) :
    (word ++ tail).rdropWhile (· == SP) = word ++ tail.rdropWhile (· == SP) := by
  have hself : word.rdropWhile (· == SP) = word := by
    refine rdropWhile_eq_self_iff.2 fun hne hlast => hword ?_
    exact beq_iff_eq.1 hlast ▸ getLast_mem hne
  unfold rdropWhile at hself ⊢
  rw [reverse_append, dropWhile_append]
  split
  · next hnil =>
    rw [List.isEmpty_iff] at hnil
    rw [hself, hnil, reverse_nil, append_nil]
  · rw [reverse_append, reverse_reverse]

theorem rdropWhile_eq_word {word tail : Bytes} (hword : SP ∉ word)
    (htail : tail = [] ∨ tail.head? = some SP) (h : SP ∉ (word ++ tail).rdropWhile (· == SP)) :
    (word ++ tail).rdropWhile (· == SP) = word := by
  rw [rdropWhile_word tail hword] at h ⊢
  suffices hnil : tail.rdropWhile (· == SP) = [] by rw [hnil, append_nil]
  by_contra hne
  obtain ⟨more, hmore⟩ : tail.rdropWhile (· == SP) <+: tail := rdropWhile_prefix _ _
  obtain ⟨c, cs, hc⟩ := exists_cons_of_ne_nil hne
  rw [hc] at hmore h
  rcases htail with htail | htail
  · rw [htail] at hmore
    cases hmore
  · rw [← hmore] at htail
    obtain rfl : c = SP := Option.some.inj htail
    exact h (mem_append_right _ mem_cons_self)

/-- The name of a header line: what stands in front of the first colon, without surrounding
spaces. -/
def namePart (line : Bytes) : Bytes := trimSpaces (line.takeWhile (· != COLON))

def IsTokenText (text : Bytes) : Prop := text ≠ [] ∧ text.all isToken = true

instance (text : Bytes) : Decidable (IsTokenText text) :=
  inferInstanceAs (Decidable (text ≠ [] ∧ text.all isToken = true))

/-! ## A line as the parser reads it -/

/-- The part of a header line in front of the colon: the name up to its first space, and what
follows the name from there. -/
structure NameText where
  indent : Nat
  key : Bytes
  gap : Bytes
  key_ne : key ≠ []
  key_token : key.all isToken = true
  gap_start : gap = [] ∨ gap.head? = some SP
  gap_token : ∀ c ∈ gap, c = SP ∨ isToken c = true

/-- A header line that the parser accepts. -/
structure LineText extends NameText where
  pad : Nat
  value : Bytes
  value_start : value.head? ≠ some SP
  value_line : ∀ c ∈ value, c ≠ CR ∧ c ≠ LF

namespace NameText

def text (t : NameText) : Bytes := replicate t.indent SP ++ (t.key ++ t.gap)

theorem sp_not_mem_key (t : NameText) : SP ∉ t.key :=
  fun h => (isToken_ne (all_eq_true.1 t.key_token SP h)).1 rfl

theorem text_ne {t : NameText} {c : UInt8} (hc : c ∈ t.text) : c ≠ COLON ∧ c ≠ CR ∧ c ≠ LF := by
  have hspace : SP ≠ COLON ∧ SP ≠ CR ∧ SP ≠ LF := by decide
  have htoken : ∀ {c}, isToken c = true → c ≠ COLON ∧ c ≠ CR ∧ c ≠ LF := fun h => (isToken_ne h).2
  simp only [text, mem_append, mem_replicate] at hc
  rcases hc with ⟨-, rfl⟩ | hkey | hgap
  · exact hspace
  · exact htoken (all_eq_true.1 t.key_token c hkey)
  · rcases t.gap_token c hgap with rfl | h
    · exact hspace
    · exact htoken h

theorem trim_text (t : NameText) :
    trimSpaces t.text = (t.key ++ t.gap).rdropWhile (· == SP) := by
  obtain ⟨c, cs, hc⟩ := exists_cons_of_ne_nil t.key_ne
  have hsp : c ≠ SP := by
    rintro rfl
    exact t.sp_not_mem_key (by rw [hc]; exact mem_cons_self)
  rw [trimSpaces, text, dropWhile_append_of_pos (by simp), hc, cons_append,
    dropWhile_cons_of_neg (by simpa using hsp)]

theorem trim_text_eq_key {t : NameText} (h : SP ∉ trimSpaces t.text) :
    trimSpaces t.text = t.key := by
  rw [trim_text] at h ⊢
  exact rdropWhile_eq_word t.sp_not_mem_key t.gap_start h

end NameText

namespace LineText

def text (t : LineText) : Bytes :=
  t.toNameText.text ++ COLON :: (replicate t.pad SP ++ t.value)

/-- A value of spaces only is reported as it is. -/
def reported (t : LineText) : Bytes := if t.value = [] then replicate t.pad SP else t.value

def call (t : LineText) : Callback := .onHeader (canonicalHeaderKey t.key) t.reported

theorem namePart_text (t : LineText) : namePart t.text = trimSpaces t.toNameText.text := by
  have htake : t.text.takeWhile (· != COLON) = t.toNameText.text := by
    rw [text, takeWhile_append_of_pos, takeWhile_cons_of_neg, append_nil]
    · simp
    · intro c hc
      exact bne_iff_ne.2 (NameText.text_ne hc).1
  rw [namePart, htake]

theorem lf_not_mem (t : LineText) : LF ∉ t.text := by
  have hspace : LF ≠ SP ∧ LF ≠ COLON := by decide
  simp only [text, mem_append, mem_cons, mem_replicate, not_or, not_and]
  exact ⟨fun h => (NameText.text_ne h).2.2 rfl, hspace.2, fun _ => hspace.1,
    fun h => (t.value_line LF h).2 rfl⟩

end LineText

def textOf (lines : List LineText) : Bytes := lines.flatMap fun t => t.text ++ crlf

theorem linesOf_textOf (lines : List LineText) (n : Nat) :
    linesOf (textOf lines ++ replicate n SP) = lines.map LineText.text := by
  induction lines with
  | nil =>
    refine splitLines_none [] ?_
    simp [textOf, show LF ≠ SP by decide]
  | cons t lines ih =>
    have hsplit : textOf (t :: lines) ++ replicate n SP =
        t.text ++ (crlf ++ (textOf lines ++ replicate n SP)) := by
      simp [textOf]
    rw [hsplit, linesOf, splitLines_line _ _ t.lf_not_mem, map_cons, ← ih]
    rfl

/-! ## Reading a header block -/

def Callback.isHeader : Callback → Bool
  | .onHeader _ _ => true
  | _ => false

def Callback.fieldName : Callback → Bytes
  | .onHeader key _ => key
  | _ => []

/-- Where the parser is in a header block of which it has read the text, if the calls `pre` were
made in front of it. -/
inductive ReadingLines (pre : Log) : Bytes → Cfg → Prop where
  /-- In front of a line or the blank line. -/
  | before (lines : List LineText) (n : Nat) {p : Fields} {kept : Bytes}
      (hst : p.state = .headerKeyBefore) (hkey : p.headerKey = []) (hval : p.headerValue = []) :
      ReadingLines pre (textOf lines ++ replicate n SP) ⟨p, pre ++ lines.map LineText.call, kept⟩
  /-- In the name, which is known from the first space on. -/
  | name (lines : List LineText) (t : NameText) {p : Fields} {kept : Bytes}
      (hst : p.state = .headerKey) (hval : p.headerValue = [])
      (hkey : t.gap = [] ∧ p.headerKey = [] ∧ kept = t.key ∨
        t.gap ≠ [] ∧ p.headerKey = canonicalHeaderKey t.key) :
      ReadingLines pre (textOf lines ++ t.text) ⟨p, pre ++ lines.map LineText.call, kept⟩
  /-- Behind the colon. -/
  | valueBefore (lines : List LineText) (t : NameText) (m : Nat) {p : Fields}
      (hst : p.state = .headerValueBefore) (hval : p.headerValue = [])
      (hkey : p.headerKey = canonicalHeaderKey t.key) :
      ReadingLines pre (textOf lines ++ (t.text ++ COLON :: replicate m SP))
        ⟨p, pre ++ lines.map LineText.call, replicate m SP⟩
  | value (lines : List LineText) (t : LineText) {p : Fields}
      (hst : p.state = .headerValue) (hval : p.headerValue = []) (hne : t.value ≠ [])
      (hkey : p.headerKey = canonicalHeaderKey t.key) :
      ReadingLines pre (textOf lines ++ t.text) ⟨p, pre ++ lines.map LineText.call, t.value⟩
  /-- Behind the carriage return of a line. -/
  | valueLF (lines : List LineText) (t : LineText) {p : Fields} {kept : Bytes}
      (hst : p.state = .headerValueLF) (hkey : p.headerKey = []) (hval : p.headerValue = []) :
      ReadingLines pre (textOf lines ++ (t.text ++ [CR]))
        ⟨p, pre ++ (lines ++ [t]).map LineText.call, kept⟩
  /-- Behind the blank line. -/
  | past {text : Bytes} {k : Cfg} (calls : Log) (cb : Callback) (hcb : cb.isHeader = false)
      (hlog : pre ++ calls ++ [cb] <+: k.log) : ReadingLines pre text k

section Step

variable {proc : Processor} {pre : Log} {text : Bytes} {p q : Fields} {log log' : Log}
  {kept : Bytes} {c : UInt8} {st : Start}

theorem endHeaders_past {calls : Log} (h : endHeaders p (pre ++ calls) = .go q log' st) :
    ReadingLines pre text ⟨q, log', kept⟩ := by
  unfold endHeaders at h
  split at h
  · cases h
  split at h
  · cases h
  split at h
  · cases h
  · cases h
    exact .past calls _ rfl prefix_rfl

theorem reading_before (lines : List LineText) (n : Nat) (hst : p.state = .headerKeyBefore)
    (hkey : p.headerKey = []) (hval : p.headerValue = [])
    (h : onByte proc p (pre ++ lines.map LineText.call) (some kept) c = .go q log' st) :
    ReadingLines pre (textOf lines ++ replicate n SP ++ [c]) ⟨q, log', st.kept kept c⟩ := by
  simp only [onByte, hst] at h
  split at h
  · -- a space in front of the name or the blank line
    next hsp =>
    split at h
    · cases h
    · cases h
      rw [hsp, append_assoc, ← replicate_succ']
      exact .before lines (n + 1) hst hkey hval
  split at h
  · exact endHeaders_past h
  split at h
  · cases h
  split at h
  · next hsp _ _ htoken =>
    cases h
    let t : NameText := ⟨n, [c], [], cons_ne_nil _ _, by simpa using htoken, .inl rfl, nofun⟩
    rw [append_assoc]
    refine .name lines t ?_ ?_ (.inl ⟨rfl, ?_, rfl⟩)
    · simp [hst]
    · simp [hst, hval]
    · simp [hst, hkey]
  · cases h

theorem withSlice_key {t : NameText} (k : Bytes → Act)
    (hkey : t.gap = [] ∧ p.headerKey = [] ∧ kept = t.key ∨
      t.gap ≠ [] ∧ p.headerKey = canonicalHeaderKey t.key) :
    withSlice p log (orSlice p.headerKey ((some kept).map canonicalHeaderKey)) k =
      k (canonicalHeaderKey t.key) := by
  rcases hkey with ⟨-, hnil, rfl⟩ | ⟨-, hkey⟩
  · rw [orSlice, if_pos hnil]
    rfl
  · rw [orSlice, hkey, if_neg (canonicalHeaderKey_ne_nil t.key_ne)]
    rfl

def NameText.snoc (t : NameText) (c : UInt8) (hstart : t.gap = [] → c = SP)
    (hc : c = SP ∨ isToken c = true) : NameText where
  indent := t.indent
  key := t.key
  gap := t.gap ++ [c]
  key_ne := t.key_ne
  key_token := t.key_token
  gap_start := by
    rcases t.gap_start with h | h
    · rw [h, hstart h]
      exact .inr rfl
    · rw [List.head?_append, h]
      exact .inr rfl
  gap_token := by
    intro x hx
    rcases mem_append.1 hx with hx | hx
    · exact t.gap_token x hx
    · exact mem_singleton.1 hx ▸ hc

theorem NameText.snoc_text (t : NameText) (c : UInt8) (hstart : t.gap = [] → c = SP)
    (hc : c = SP ∨ isToken c = true) : (t.snoc c hstart hc).text = t.text ++ [c] := by
  simp [NameText.text, NameText.snoc]

section

variable (lines : List LineText)

include lines

theorem reading_name (t : NameText) (hst : p.state = .headerKey) (hval : p.headerValue = [])
    (hkey : t.gap = [] ∧ p.headerKey = [] ∧ kept = t.key ∨
      t.gap ≠ [] ∧ p.headerKey = canonicalHeaderKey t.key)
    (h : onByte proc p (pre ++ lines.map LineText.call) (some kept) c = .go q log' st) :
    ReadingLines pre (textOf lines ++ t.text ++ [c]) ⟨q, log', st.kept kept c⟩ := by
  simp only [onByte, hst, withSlice_key _ hkey] at h
  split at h
  · -- from here on the name is fixed
    next hsp =>
    cases h
    rw [append_assoc, ← t.snoc_text c (fun _ => hsp) (.inl hsp)]
    exact .name lines _ rfl hval
      (.inr ⟨append_ne_nil_of_right_ne_nil _ (cons_ne_nil _ _), rfl⟩)
  split at h
  · next hcolon =>
    cases h
    rw [append_assoc, hcolon]
    exact .valueBefore lines t 0 rfl hval rfl
  split at h
  · cases h
  split at h
  · cases h
  · next htoken =>
    cases h
    rw [Bool.not_eq_true, Bool.not_eq_false'] at htoken
    rcases hkey with ⟨hgap, hnil, rfl⟩ | ⟨hgap, hkey⟩
    · let t' : NameText := ⟨t.indent, t.key ++ [c], [],
        append_ne_nil_of_right_ne_nil _ (cons_ne_nil _ _), by simp [t.key_token, htoken],
        .inl rfl, nofun⟩
      have htext : t.text ++ [c] = t'.text := by simp [NameText.text, t', hgap]
      rw [append_assoc, htext]
      exact .name lines t' hst hval (.inl ⟨rfl, hnil, rfl⟩)
    · rw [append_assoc, ← t.snoc_text c (fun h => absurd h hgap) (.inr htoken)]
      exact .name lines _ hst hval
        (.inr ⟨append_ne_nil_of_right_ne_nil _ (cons_ne_nil _ _), hkey⟩)

theorem reading_endHeader (t : LineText) (hst : p.state ≠ .close)
    (hkey : p.headerKey = canonicalHeaderKey t.key) :
    ReadingLines pre (textOf lines ++ (t.text ++ [CR])) ⟨p.endHeader t.reported,
      pre ++ lines.map LineText.call ++ [.onHeader p.headerKey t.reported], kept⟩ := by
  have hlog : pre ++ lines.map LineText.call ++ [.onHeader p.headerKey t.reported] =
      pre ++ (lines ++ [t]).map LineText.call := by
    rw [hkey, map_append, append_assoc]
    rfl
  rw [hlog]
  unfold Fields.endHeader Fields.nextState
  split
  · next hclose => exact absurd hclose hst
  · exact .valueLF lines t rfl rfl rfl

theorem reading_valueBefore (t : NameText) (m : Nat) (hst : p.state = .headerValueBefore)
    (hval : p.headerValue = []) (hkey : p.headerKey = canonicalHeaderKey t.key)
    (h : onByte proc p (pre ++ lines.map LineText.call) (some (replicate m SP)) c = .go q log' st)
    :
    ReadingLines pre (textOf lines ++ (t.text ++ COLON :: replicate m SP) ++ [c])
      ⟨q, log', st.kept (replicate m SP) c⟩ := by
  simp only [onByte, hst, hval] at h
  split at h
  · next hsp =>
    cases h
    have htext : textOf lines ++ (t.text ++ COLON :: replicate m SP) ++ [c] =
        textOf lines ++ (t.text ++ COLON :: replicate (m + 1) SP) := by
      simp [hsp, replicate_succ']
    rw [htext, Start.kept, hsp, ← replicate_succ']
    exact .valueBefore lines t (m + 1) hst hval hkey
  split at h
  · -- nothing but spaces: they are the value
    next hcr =>
    cases h
    let t' : LineText := ⟨t, m, [], by simp, by simp⟩
    have htext : textOf lines ++ (t.text ++ COLON :: replicate m SP) ++ [c] =
        textOf lines ++ (t'.text ++ [CR]) := by
      simp [LineText.text, t', hcr]
    rw [htext]
    exact reading_endHeader lines t' (by rw [hst]; decide) hkey
  split at h
  · cases h
  · next hsp hcr hlf =>
    cases h
    let t' : LineText := ⟨t, m, [c], fun h => hsp (Option.some.inj h), by
      intro x hx
      obtain rfl := mem_singleton.1 hx
      exact ⟨hcr, hlf⟩⟩
    have htext : textOf lines ++ (t.text ++ COLON :: replicate m SP) ++ [c] =
        textOf lines ++ t'.text := by
      simp [LineText.text, t']
    rw [htext]
    refine .value lines t' ?_ ?_ (cons_ne_nil _ _) ?_
    · simp [hst]
    · simp [hst, hval]
    · simpa [hst] using hkey

theorem reading_value (t : LineText) (hst : p.state = .headerValue) (hval : p.headerValue = [])
    (hne : t.value ≠ []) (hkey : p.headerKey = canonicalHeaderKey t.key)
    (h : onByte proc p (pre ++ lines.map LineText.call) (some t.value) c = .go q log' st) :
    ReadingLines pre (textOf lines ++ t.text ++ [c]) ⟨q, log', st.kept t.value c⟩ := by
  simp only [onByte, hst, hval] at h
  split at h
  · next hcr =>
    cases h
    have hvalue : t.value = t.reported := (if_neg hne).symm
    rw [append_assoc, hcr, hvalue]
    exact reading_endHeader lines t (by rw [hst]; nofun) hkey
  split at h
  · cases h
  · next hcr hlf =>
    cases h
    let t' : LineText := ⟨t.toNameText, t.pad, t.value ++ [c], by
        rw [head?_append_of_ne_nil _ hne]
        exact t.value_start, by
        intro x hx
        rcases mem_append.1 hx with hx | hx
        · exact t.value_line x hx
        · obtain rfl := mem_singleton.1 hx
          exact ⟨hcr, hlf⟩⟩
    have htext : textOf lines ++ t.text ++ [c] = textOf lines ++ t'.text := by
      simp [LineText.text, t']
    rw [htext]
    exact .value lines t' hst hval (append_ne_nil_of_right_ne_nil _ (cons_ne_nil _ _)) hkey

theorem reading_valueLF (t : LineText) (hst : p.state = .headerValueLF) (hkey : p.headerKey = [])
    (hval : p.headerValue = [])
    (h : onByte proc p (pre ++ (lines ++ [t]).map LineText.call) (some kept) c = .go q log' st) :
    ReadingLines pre (textOf lines ++ (t.text ++ [CR]) ++ [c]) ⟨q, log', st.kept kept c⟩ := by
  simp only [onByte, hst] at h
  split at h
  · next hlf =>
    cases h
    have htext : textOf lines ++ (t.text ++ [CR]) ++ [c] =
        textOf (lines ++ [t]) ++ replicate 0 SP := by
      simp [textOf, hlf]
    rw [htext]
    refine .before (lines ++ [t]) 0 ?_ ?_ ?_
    · simp [hst]
    · simpa [hst] using hkey
    · simpa [hst] using hval
  · cases h

end

theorem reading_step {k k' : Cfg} {xs : Bytes} {n : Nat} (hr : ReadingLines pre text k)
    (h : (scanner proc).next k xs = .step n k') :
    ReadingLines pre (text ++ xs.take (n + 1)) k' := by
  have hgrow := Cfg.next_log_grows h
  obtain ⟨-, ⟨cl, hb, -⟩ | ⟨c, rest, s, rfl, -, rfl, hgo, hkept⟩⟩ := Cfg.next_cases h
  · cases hr with
    | past calls cb hcb hlog => exact .past calls cb hcb (hlog.trans hgrow)
    | before _ _ hst | name _ _ hst | valueBefore _ _ _ hst | value _ _ hst | valueLF _ _ hst =>
      rw [Fields.bodyLen, hst] at hb
      cases hb
  · obtain ⟨q, log', kept'⟩ := k'
    obtain rfl : kept' = s.kept k.kept c := hkept
    cases hr with
    | before lines n hst hkey hval => exact reading_before lines n hst hkey hval hgo
    | name lines t hst hval hkey => exact reading_name lines t hst hval hkey hgo
    | valueBefore lines t m hst hval hkey => exact reading_valueBefore lines t m hst hval hkey hgo
    | value lines t hst hval hne hkey => exact reading_value lines t hst hval hne hkey hgo
    | valueLF lines t hst hkey hval => exact reading_valueLF lines t hst hkey hval hgo
    | past calls cb hcb hlog => exact .past calls cb hcb (hlog.trans hgrow)

theorem reading_run {k k' : Cfg} {xs : Bytes} (hr : ReadingLines pre [] k)
    (h : (scanner proc).run k xs = .ok (k', [])) : ReadingLines pre xs k' := by
  obtain ⟨text, htext, hread⟩ := (scanner proc).run_inv
    (P := fun k rest => ∃ text, text ++ rest = xs ∧ ReadingLines pre text k)
    (fun {k ys n k'} hk hn => by
      obtain ⟨text, htext, hread⟩ := hk
      refine ⟨text ++ ys.take (n + 1), ?_, reading_step hread hn⟩
      rw [append_assoc, take_append_drop, htext]) ⟨[], rfl, hr⟩ h
  rw [append_nil] at htext
  exact htext ▸ hread

end Step

/-! ## The names that are reported -/

theorem ReadingLines.lines_of_before {pre : Log} {text : Bytes} {k : Cfg}
    {fields : List (Bytes × Bytes)} (h : ReadingLines pre text k)
    (hst : k.p.state = .headerKeyBefore)
    (hlog : k.log = pre ++ fields.map fun f => .onHeader f.1 f.2) :
    ∃ lines : List LineText, linesOf text = lines.map LineText.text ∧
      fields.map Prod.fst = lines.map fun t => canonicalHeaderKey t.key := by
  cases h with
  | before lines n _ _ _ =>
    refine ⟨lines, linesOf_textOf lines n, ?_⟩
    have hkeys := congrArg (map Callback.fieldName) (append_cancel_left hlog)
    rw [map_map, map_map] at hkeys
    exact hkeys.symm
  | name _ _ hst' | valueBefore _ _ _ hst' | value _ _ hst' | valueLF _ _ hst' =>
    cases hst'.symm.trans hst
  | past calls cb hcb hpast =>
    obtain ⟨more, hmore⟩ := hpast
    rw [hlog, append_assoc, append_assoc] at hmore
    have hmem : cb ∈ fields.map fun f : Bytes × Bytes => Callback.onHeader f.1 f.2 := by
      rw [← append_cancel_left hmore]
      simp
    obtain ⟨f, -, rfl⟩ := mem_map.1 hmem
    cases hcb

theorem keys_whole_iff (lines : List LineText) :
    (lines.map (fun t => canonicalHeaderKey t.key) =
        (lines.map LineText.text).map (fun l => canonicalHeaderKey (namePart l)) ∧
      ∀ l ∈ lines.map LineText.text, IsTokenText (namePart l)) ↔
    ∀ l ∈ lines.map LineText.text, SP ∉ namePart l := by
  constructor
  · rintro ⟨-, htoken⟩ l hl hmem
    have hsp := all_eq_true.1 (htoken l hl).2 SP hmem
    exact (isToken_ne hsp).1 rfl
  · intro hspace
    have hkey : ∀ t ∈ lines, namePart t.text = t.key := by
      intro t ht
      have hno := hspace t.text (mem_map_of_mem ht)
      rw [t.namePart_text] at hno ⊢
      exact NameText.trim_text_eq_key hno
    refine ⟨?_, ?_⟩
    · rw [map_map]
      refine map_congr_left fun t ht => ?_
      exact congrArg canonicalHeaderKey (hkey t ht).symm
    · intro l hl
      obtain ⟨t, ht, rfl⟩ := mem_map.1 hl
      rw [hkey t ht]
      exact ⟨t.key_ne, t.key_token⟩

theorem Parser.cfg_headerKeyBefore {p : Parser} (log : Log) (hp : p.state = .headerKeyBefore) :
    p.cfg log = (⟨p.toFields, log, p.cache⟩, []) := by
  rw [Parser.cfg, Fields.bodyLen, hp]

/-- Whatever has been fed to a new parser, in whatever pieces: the header lines it accepts from then
on are reported by their whole names, which are tokens, if and only if no name has a space
inside. -/
theorem names_whole_iff {proc : Processor} (hproc : proc.NeverUpgrades) (isClient : Bool)
    (readLimit : Int) (segs segs' : List Bytes) (fields : List (Bytes × Bytes)) {r r' : Result}
    (hr : r = (newParser isClient).feed proc readLimit [] segs)
    (hr' : r' = r.parser.feed proc readLimit r.log segs')
    (hbefore : r.err = none ∧ r.parser.state = .headerKeyBefore)
    (hafter : r'.err = none ∧ r'.parser.state = .headerKeyBefore)
    (hcalls : r'.log = r.log ++ fields.map fun f => .onHeader f.1 f.2) :
    (fields.map Prod.fst = (linesOf segs'.flatten).map (fun l => canonicalHeaderKey (namePart l)) ∧
      ∀ l ∈ linesOf segs'.flatten, IsTokenText (namePart l)) ↔
    ∀ l ∈ linesOf segs'.flatten, SP ∉ namePart l := by
  subst hr
  have hready := (Parser.feed_ready hproc (newParser_ready proc isClient []) hbefore.1).1
  generalize (newParser isClient).feed proc readLimit [] segs = r at hready hr' hbefore hcalls
  subst hr'
  have hrun := (Parser.feed_ready hproc hready hafter.1).2
  generalize r.parser.feed proc readLimit r.log segs' = r' at hrun hafter hcalls
  rw [Parser.cfg_headerKeyBefore _ hbefore.2, Parser.cfg_headerKeyBefore _ hafter.2] at hrun
  have hinv := hready.wf.inv.at hbefore.2
  have hstart : ReadingLines r.log [] ⟨r.parser.toFields, r.log ++ map LineText.call [],
      r.parser.cache⟩ := .before [] 0 hbefore.2 (hinv.headerKey rfl) (hinv.headerValue rfl)
  rw [map_nil, append_nil] at hstart
  have hread : ReadingLines r.log segs'.flatten ⟨r'.parser.toFields, r'.log, r'.parser.cache⟩ :=
    reading_run hstart hrun
  obtain ⟨lines, hlines, hkeys⟩ := hread.lines_of_before hafter.2 hcalls
  rw [hlines, hkeys]
  exact keys_whole_iff lines

/-- The lines of a request, cut in two within a line. -/
theorem names_whole_iff_two_lines :
    let lines := [ascii "Host: a\r\nX-B", ascii " :  b c \r\n"]
    linesOf lines.flatten = [ascii "Host: a", ascii "X-B :  b c "] ∧
      [ascii "Host", ascii "X-B"] =
        (linesOf lines.flatten).map fun l => canonicalHeaderKey (namePart l) := by
  have hproc : Processor.accept.NeverUpgrades := fun _ => rfl
  refine ⟨rfl, ?_⟩
  exact ((names_whole_iff hproc false 0 [ascii "GET / HTTP/1.1\r\n"]
    [ascii "Host: a\r\nX-B", ascii " :  b c \r\n"]
    [(ascii "Host", ascii "a"), (ascii "X-B", ascii "b c ")] rfl rfl ⟨rfl, rfl⟩ ⟨rfl, rfl⟩
    rfl).2 (by decide +kernel)).1

/-- `Foo Bar: x` is accepted, as the header `Foo`. -/
theorem foo_bar_is_foo :
    let head := [ascii "Foo Bar: x\r\n"]
    let r := (newParser false).feed .accept 0 [] [ascii "GET / HTTP/1.1\r\n"]
    let r' := r.parser.feed .accept 0 r.log head
    (r.err = none ∧ r.parser.state = .headerKeyBefore) ∧
    (r'.err = none ∧ r'.parser.state = .headerKeyBefore) ∧
    r'.log = r.log ++ [.onHeader (ascii "Foo") (ascii "x")] ∧
    linesOf head.flatten = [ascii "Foo Bar: x"] ∧ namePart (ascii "Foo Bar: x") = ascii "Foo Bar" ∧
    canonicalHeaderKey (ascii "Foo Bar") ≠ ascii "Foo" ∧ ¬ IsTokenText (ascii "Foo Bar") ∧
    ((newParser false).feed .accept 0 [] [ascii "GET / HTTP/1.1\r\nFoo Bar: x\r\n\r\n"]).log =
      [.onMethod (ascii "GET"), .onURL (ascii "/"), .onProto (ascii "HTTP/1.1"),
        .onHeader (ascii "Foo") (ascii "x"), .onContentLength (-1), .onComplete] := by
  refine ⟨⟨rfl, rfl⟩, ⟨rfl, rfl⟩, rfl, rfl, rfl, ?_, ?_, rfl⟩
  · decide +kernel
  · decide +kernel

end Nbio.Http
