import Nbio.Go.Slice
import Nbio.Http.Parser

/-!
# The extensions of a handshake

`parseExtensions` reads the `Sec-Websocket-Extensions` values of a header.  Its loops run over what
is left of a value; in the model `none` is an index out of range, or a loop that has not ended, and
an inner `none` is `continue headers`.

The grammar is that of RFC 6455, as data with the text of it: an `Extension` is a name with its
parameters and the blanks around them.  The code also takes two kinds of text for an extension that
are not in it (`Value.missing` and `Value.unclosed`).
-/

namespace Nbio.Websocket

open Nbio.Go List Option
open Nbio.Http (Header SP)

abbrev HT : UInt8 := 9
abbrev DQUOTE : UInt8 := 34
abbrev COMMA : UInt8 := 44
abbrev SEMICOLON : UInt8 := 59
abbrev EQUALS : UInt8 := 61
abbrev BACKSLASH : UInt8 := 92

/-- The bytes set in `isTokenOctet`. -/
def tokenOctets : Bytes :=
  ascii "!#$%&'*+-.0123456789ABCDEFGHIJKLMNOPQRSTUWVXYZ^_`abcdefghijklmnopqrstuvwxyz|~"

def isTokenOctet (c : UInt8) : Bool := tokenOctets.contains c

/-- The slice expression `s[i:]`. -/
def sliceFrom (s : Bytes) (i : Nat) : Option Bytes := slice s i s.length

def skipSpace (s : Bytes) : Option Bytes := sliceFrom s (s.findIdx fun b => b != SP && b != HT)

def nextToken (s : Bytes) : Option (Bytes × Bytes) := do
  let i := s.findIdx fun b => !isTokenOctet b
  return (← slice s 0 i, ← sliceFrom s i)

def setAt (p : Bytes) (j : Nat) (b : UInt8) : Option Bytes :=
  if j < p.length then some (p.set j b) else none

/-- The inner loop of `nextTokenOrQuoted`, at index `i` with the bytes from there on. -/
def unescape (s : Bytes) : Bytes → Nat → Nat → Bool → Bytes → Option (Bytes × Bytes)
  | _, _, _, _, [] => some ([], [])
  | p, i, j, escape, b :: rest =>
    if escape then do unescape s (← setAt p j b) (i + 1) (j + 1) false rest
    else if b = BACKSLASH then unescape s p (i + 1) j true rest
    else if b = DQUOTE then do return (← slice p 0 j, ← sliceFrom s (i + 1))
    else do unescape s (← setAt p j b) (i + 1) (j + 1) false rest

/-- The outer loop of `nextTokenOrQuoted`, behind the opening quote. -/
def scanQuoted (s : Bytes) : Nat → Bytes → Option (Bytes × Bytes)
  | _, [] => some ([], [])
  | i, b :: rest =>
    if b = DQUOTE then do return (← slice s 0 i, ← sliceFrom s (i + 1))
    else if b = BACKSLASH then do
      let p := Slice.copyOver (replicate (s.length - 1) 0) 0 (← slice s 0 i)
      unescape s p (i + 1) (min (s.length - 1) i) true rest
    else scanQuoted s (i + 1) rest

def nextTokenOrQuoted (s : Bytes) : Option (Bytes × Bytes) :=
  if s.head? = some DQUOTE then do
    let s ← sliceFrom s 1
    scanQuoted s 0 s
  else nextToken s

/-- A `map[string]string`, its keys in the order in which they were first set. -/
abbrev ExtMap := List (Bytes × Bytes)

def ExtMap.set (m : ExtMap) (k v : Bytes) : ExtMap :=
  if m.any (·.1 == k) then m.map fun kv => if kv.1 == k then (k, v) else kv else m ++ [(k, v)]

/-- The value of a parameter, if it has one, and what is left behind the blanks. -/
def nextValue (s : Bytes) : Option (Bytes × Bytes) := do
  let s ← skipSpace s
  if s.head? = some EQUALS then
    let (v, s) ← nextTokenOrQuoted (← skipSpace (← sliceFrom s 1))
    return (v, ← skipSpace s)
  else return ([], s)

/-- `s != "" && s[0] != c`, for every `c` of the list. -/
def startsElse (s cs : Bytes) : Option Bool :=
  if s = [] then some false else s[0]?.map fun b => !cs.contains b

def nextParams : Nat → Bytes → ExtMap → Option (Option (ExtMap × Bytes))
  | 0, _, _ => none
  | fuel + 1, s, ext => do
    let s ← skipSpace s
    if s.head? = some SEMICOLON then
      let (k, s) ← nextToken (← skipSpace (← sliceFrom s 1))
      if k = [] then return none
      else
        let (v, s) ← nextValue s
        if ← startsElse s [COMMA, SEMICOLON] then return none
        else nextParams fuel s (ext.set k v)
    else return some (ext, s)

/-- One pass of the loop over the extensions of a value, up to the comma or the end. -/
def nextExtension (s : Bytes) : Option (Option (ExtMap × Bytes)) := do
  let (t, s) ← nextToken (← skipSpace s)
  if t = [] then return none
  else
    match ← nextParams (s.length + 1) s [([], t)] with
    | none => return none
    | some (ext, s) => if ← startsElse s [COMMA] then return none else return some (ext, s)

def parseValue : Nat → Bytes → List ExtMap → Option (List ExtMap)
  | 0, _, _ => none
  | fuel + 1, s, result => do
    match ← nextExtension s with
    | none => return result
    | some (ext, s) =>
      if s = [] then return result ++ [ext]
      else parseValue fuel (← sliceFrom s 1) (result ++ [ext])

/-- `header["Sec-Websocket-Extensions"]`. -/
def extensionValues (header : Header) : List Bytes :=
  (header.lookup (ascii "Sec-Websocket-Extensions")).getD []

def parseExtensions (header : Header) : Option (List ExtMap) :=
  (extensionValues header).foldlM (fun result s => parseValue (s.length + 1) s result) []

/-! ## The grammar -/

def isBlank (c : UInt8) : Bool := c == SP || c == HT

def Blanks := { b : Bytes // b.all isBlank = true }

def Token := { t : Bytes // t ≠ [] ∧ t.all isTokenOctet = true }

/-- A byte of a quoted string; a quote and a backslash are escaped, any other byte may be. -/
structure QuotedByte where
  c : UInt8
  escaped : Bool
  plain : escaped = true ∨ c ≠ DQUOTE ∧ c ≠ BACKSLASH

def QuotedByte.text (q : QuotedByte) : Bytes := if q.escaped then [BACKSLASH, q.c] else [q.c]

def quotedText (body : List QuotedByte) : Bytes := body.flatMap QuotedByte.text

def quotedBytes (body : List QuotedByte) : Bytes := body.map QuotedByte.c

/-- What stands behind the key of a parameter.  The last two are not in the grammar: nothing behind
the equals sign, and a quoted string that is not closed. -/
inductive Value where
  | absent
  | token (before : Blanks) (t : Token)
  | quoted (before : Blanks) (body : List QuotedByte)
  | missing (before : Blanks)
  | unclosed (before : Blanks) (body : List QuotedByte) (dangling : Bool)

namespace Value

def text : Value → Bytes
  | absent => []
  | token b t => EQUALS :: (b.1 ++ t.1)
  | quoted b body => EQUALS :: (b.1 ++ DQUOTE :: (quotedText body ++ [DQUOTE]))
  | missing b => EQUALS :: b.1
  | unclosed b body dangling =>
    EQUALS :: (b.1 ++ DQUOTE :: (quotedText body ++ if dangling then [BACKSLASH] else []))

def bytes : Value → Bytes
  | token _ t => t.1
  | quoted _ body => quotedBytes body
  | _ => []

def wellFormed : Value → Bool
  | missing _ | unclosed .. => false
  | _ => true

def isUnclosed : Value → Bool
  | unclosed .. => true
  | _ => false

end Value

structure Param where
  before : Blanks
  key : Token
  after : Blanks
  value : Value
  last : Blanks

def Param.text (p : Param) : Bytes :=
  SEMICOLON :: (p.before.1 ++ (p.key.1 ++ (p.after.1 ++ (p.value.text ++ p.last.1))))

structure Extension where
  before : Blanks
  name : Token
  after : Blanks
  params : List Param

namespace Extension

def text (e : Extension) : Bytes :=
  e.before.1 ++ (e.name.1 ++ (e.after.1 ++ e.params.flatMap Param.text))

/-- The map that the parameters are stored in, the name under the empty key. -/
def toMap (e : Extension) : ExtMap :=
  e.params.foldl (fun m p => m.set p.key.1 p.value.bytes) [([], e.name.1)]

def wellFormed (e : Extension) : Bool := e.params.all (·.value.wellFormed)

end Extension

/-- Nothing follows a quoted string that is not closed. -/
def UnclosedLast : List Param → Bytes → Prop
  | [], _ => True
  | p :: ps, rest =>
    (p.value.isUnclosed = true → p.last.1 ++ (ps.flatMap Param.text ++ rest) = []) ∧
      UnclosedLast ps rest

/-- The end of a value, or the comma behind an extension. -/
def Ends (rest : Bytes) : Prop := ∀ c, rest.head? = some c → c = COMMA

/-- The code takes the text up to `rest` for the extension. -/
structure Takes (s : Bytes) (e : Extension) (rest : Bytes) : Prop where
  text : s = e.text ++ rest
  ends : Ends rest
  last : UnclosedLast e.params rest

/-! ## Blanks and tokens -/

/-- A scan over bytes with `p` ends here. -/
def Stops (p : UInt8 → Bool) (s : Bytes) : Prop := ∀ c, s.head? = some c → p c = false

section Scan

variable {p : UInt8 → Bool} {a s : Bytes}

theorem findIdx_append_stops (ha : a.all p = true) (hs : Stops p s) :
    (a ++ s).findIdx (fun b => !p b) = a.length := by
  induction a with
  | nil =>
    cases s with
    | nil => rfl
    | cons c s =>
      rw [nil_append, findIdx_cons, hs c rfl]
      rfl
  | cons c a ih =>
    rw [all_cons, Bool.and_eq_true] at ha
    rw [cons_append, findIdx_cons, ha.1, ih ha.2]
    rfl

theorem exists_scan (p : UInt8 → Bool) (s : Bytes) :
    ∃ a r, s = a ++ r ∧ a.all p = true ∧ Stops p r := by
  refine ⟨s.takeWhile p, s.dropWhile p, takeWhile_append_dropWhile.symm, all_takeWhile,
    fun c hc => ?_⟩
  have hnot := head?_dropWhile_not p s
  rw [hc] at hnot
  simpa using hnot

theorem sliceFrom_append (a s : Bytes) : sliceFrom (a ++ s) a.length = some s := by
  rw [sliceFrom, slice_eq (by simp) (Nat.le_refl _), drop_left, take_of_length_le (by simp)]

theorem slice_append (a s : Bytes) : slice (a ++ s) 0 a.length = some a := by
  rw [slice_eq (Nat.zero_le _) (by simp), drop_zero, Nat.sub_zero, take_left]

theorem sliceFrom_cons (c : UInt8) (s : Bytes) : sliceFrom (c :: s) 1 = some s :=
  sliceFrom_append [c] s

theorem skipSpace_append (ha : a.all isBlank = true) (hs : Stops isBlank s) :
    skipSpace (a ++ s) = some s := by
  have hfun : (fun b => b != SP && b != HT) = fun b => !isBlank b := by
    funext b
    rw [isBlank, Bool.not_or]
    rfl
  rw [skipSpace, hfun, findIdx_append_stops ha hs, sliceFrom_append]

theorem nextToken_append (ha : a.all isTokenOctet = true) (hs : Stops isTokenOctet s) :
    nextToken (a ++ s) = some (a, s) := by
  simp only [nextToken, findIdx_append_stops ha hs, slice_append, sliceFrom_append]
  rfl

end Scan

/-! ## Quoted strings -/

/-- What can follow the bytes of a quoted string, and what is made of the bytes then. -/
inductive QuotedTail : Bytes → (Bytes → Bytes × Bytes) → Prop where
  | closed (rest : Bytes) : QuotedTail (DQUOTE :: rest) fun v => (v, rest)
  | unclosed (dangling : Bool) : QuotedTail (if dangling then [BACKSLASH] else []) fun _ => ([], [])

theorem exists_quoted : ∀ s : Bytes, ∃ body tail r, s = quotedText body ++ tail ∧ QuotedTail tail r
  | [] => ⟨[], [], _, rfl, .unclosed false⟩
  | [c] => by
    by_cases hq : c = DQUOTE
    · subst hq
      exact ⟨[], _, _, rfl, .closed []⟩
    by_cases hb : c = BACKSLASH
    · subst hb
      exact ⟨[], _, _, rfl, .unclosed true⟩
    · exact ⟨[⟨c, false, .inr ⟨hq, hb⟩⟩], [], _, rfl, .unclosed false⟩
  | c :: d :: s => by
    by_cases hq : c = DQUOTE
    · subst hq
      exact ⟨[], _, _, rfl, .closed (d :: s)⟩
    by_cases hb : c = BACKSLASH
    · obtain ⟨body, tail, r, hs, htail⟩ := exists_quoted s
      exact ⟨⟨d, true, .inl rfl⟩ :: body, tail, r, by rw [hs, hb]; rfl, htail⟩
    · obtain ⟨body, tail, r, hs, htail⟩ := exists_quoted (d :: s)
      exact ⟨⟨c, false, .inr ⟨hq, hb⟩⟩ :: body, tail, r, by rw [hs]; rfl, htail⟩

theorem setAt_append {acc z : Bytes} (c : UInt8) (hz : z ≠ []) :
    setAt (acc ++ z) acc.length c = some (acc ++ [c] ++ z.tail) := by
  obtain ⟨x, z, rfl⟩ := exists_cons_of_ne_nil hz
  rw [setAt]
  simp

theorem sliceFrom_succ (a : Bytes) (c : UInt8) (s : Bytes) :
    sliceFrom (a ++ c :: s) (a.length + 1) = some s := by
  have h := sliceFrom_append (a ++ [c]) s
  rwa [append_assoc, length_append] at h

variable {r : Bytes → Bytes × Bytes} {s : Bytes}

theorem unescape_quoted {before tail : Bytes} (acc z : Bytes) {body : List QuotedByte}
    (htail : QuotedTail tail r) (hs : s = before ++ (quotedText body ++ tail))
    (hroom : body.length ≤ z.length) :
    unescape s (acc ++ z) before.length acc.length false (quotedText body ++ tail) =
      some (r (acc ++ quotedBytes body)) := by
  induction body generalizing before acc z with
  | nil =>
    rw [quotedText, flatMap_nil, nil_append] at hs ⊢
    cases htail with
    | closed rest =>
      rw [unescape, slice_append, hs, sliceFrom_succ, quotedBytes, map_nil, append_nil]
      rfl
    | unclosed dangling => cases dangling <;> rfl
  | cons q body ih =>
    have hz : z ≠ [] := ne_nil_of_length_pos (Nat.lt_of_lt_of_le (Nat.zero_lt_succ _) hroom)
    have htail' : body.length ≤ z.tail.length := by
      rw [length_tail]
      exact Nat.le_sub_one_of_lt hroom
    have hwrite : ∀ before', s = before' ++ (quotedText body ++ tail) →
        ((setAt (acc ++ z) acc.length q.c).bind fun p =>
          unescape s p before'.length (acc.length + 1)
          false (quotedText body ++ tail)) = some (r (acc ++ quotedBytes (q :: body))) := by
      intro before' hs'
      have hnext := ih (acc ++ [q.c]) z.tail hs' htail'
      rw [length_append, append_assoc acc [q.c] (quotedBytes body)] at hnext
      rw [setAt_append q.c hz]
      exact hnext
    rw [quotedText, flatMap_cons, append_assoc] at hs ⊢
    cases hq : q.escaped with
    | true =>
      rw [QuotedByte.text, hq] at hs ⊢
      have hstep := hwrite (before ++ [BACKSLASH, q.c]) (by rw [hs, append_assoc]; rfl)
      rw [length_append] at hstep
      exact hstep
    | false =>
      obtain hesc | ⟨hquote, hback⟩ := q.plain
      · rw [hq] at hesc
        cases hesc
      rw [QuotedByte.text, hq, if_neg Bool.false_ne_true] at hs ⊢
      have hstep := hwrite (before ++ [q.c]) (by rw [hs, append_assoc]; rfl)
      rw [length_append] at hstep
      rw [singleton_append, unescape, if_neg hback, if_neg hquote]
      exact hstep

theorem length_le_flatMap {α : Type} {f : α → Bytes} (hf : ∀ x, f x ≠ []) (xs : List α) :
    xs.length ≤ (xs.flatMap f).length := by
  induction xs with
  | nil => exact Nat.le_refl _
  | cons x xs ih =>
    have hx := length_pos_iff.2 (hf x)
    rw [flatMap_cons, length_append, length_cons]
    omega

theorem QuotedByte.text_ne (q : QuotedByte) : q.text ≠ [] := by
  rw [text]
  split <;> exact cons_ne_nil _ _

/-- The outer loop, with the bytes that it has passed over.  At the first backslash these are copied
to a buffer that has room for what is left: the backslash is not written. -/
theorem scanQuoted_quoted {before tail : Bytes} {body : List QuotedByte} (htail : QuotedTail tail r)
    (hs : s = before ++ (quotedText body ++ tail)) :
    scanQuoted s before.length (quotedText body ++ tail) =
      some (r (before ++ quotedBytes body)) := by
  induction body generalizing before with
  | nil =>
    rw [quotedText, flatMap_nil, nil_append] at hs ⊢
    cases htail with
    | closed rest =>
      rw [scanQuoted, hs, slice_append, sliceFrom_succ, quotedBytes, map_nil, append_nil]
      rfl
    | unclosed dangling =>
      cases dangling with
      | false => rfl
      | true =>
        rw [if_pos rfl, scanQuoted, hs, slice_append]
        rfl
  | cons q body ih =>
    have hcons : quotedText (q :: body) = q.text ++ quotedText body := flatMap_cons ..
    cases hq : q.escaped with
    | true =>
      have htext : q.text = [BACKSLASH, q.c] := by rw [QuotedByte.text, hq, if_pos rfl]
      have hslice : slice s 0 before.length = some before := by rw [hs, slice_append]
      have hlen := congrArg length hs
      have hbody : body.length ≤ (quotedText body).length :=
        length_le_flatMap QuotedByte.text_ne body
      rw [hcons, htext] at hlen
      simp only [length_append, length_cons] at hlen
      have hcopy : Slice.copyOver (replicate (s.length - 1) 0) 0 before =
          before ++ replicate (s.length - 1 - before.length) 0 := by
        rw [Slice.copyOver_eq (by rw [length_replicate]; omega), take_zero, nil_append,
          drop_replicate, Nat.zero_add]
      have hinner := unescape_quoted before (replicate (s.length - 1 - before.length) 0) htail hs
        (by rw [length_replicate, length_cons]; omega)
      rw [hcons, htext, append_assoc] at hinner ⊢
      rw [cons_append, scanQuoted, hslice]
      simp only [Option.bind_eq_bind, bind_some]
      rw [hcopy, Nat.min_eq_right (by omega)]
      exact hinner
    | false =>
      obtain hesc | ⟨hquote, hback⟩ := q.plain
      · rw [hq] at hesc
        cases hesc
      have htext : q.text = [q.c] := by rw [QuotedByte.text, hq, if_neg Bool.false_ne_true]
      rw [hcons, htext, append_assoc] at hs ⊢
      have hstep := ih (by rw [hs, append_assoc])
      rw [length_append, append_assoc] at hstep
      rw [singleton_append, scanQuoted, if_neg hquote, if_neg hback]
      exact hstep

theorem nextTokenOrQuoted_quoted {tail : Bytes} (htail : QuotedTail tail r)
    (body : List QuotedByte) :
    nextTokenOrQuoted (DQUOTE :: (quotedText body ++ tail)) = some (r (quotedBytes body)) := by
  rw [nextTokenOrQuoted, sliceFrom_cons]
  exact @scanQuoted_quoted _ _ [] tail body htail rfl

/-! ## Parameters -/

theorem isTokenOctet_ne {c : UInt8} (h : isTokenOctet c = true) :
    isBlank c = false ∧ c ≠ DQUOTE ∧ c ≠ COMMA ∧ c ≠ SEMICOLON ∧ c ≠ EQUALS := by
  have hall : tokenOctets.all (fun c => !isBlank c && c != DQUOTE && c != COMMA && c != SEMICOLON &&
    c != EQUALS) = true := by decide +kernel
  have hc := all_eq_true.1 hall c (contains_iff_mem.1 h)
  simpa [and_assoc] using hc

/-- The end, or a comma or a semicolon. -/
def Separated (s : Bytes) : Prop := ∀ c, s.head? = some c → c = COMMA ∨ c = SEMICOLON

variable {fuel : Nat} {e : Extension}

section Pieces

variable {p : UInt8 → Bool} {s rest : Bytes} {ps : List Param}

theorem Stops.append (hs : Stops p s) {a : Bytes} (ha : ∀ c ∈ a, p c = false) :
    Stops p (a ++ s) := by
  intro c hc
  cases a with
  | nil => exact hs c hc
  | cons d a => exact some.inj hc ▸ ha d mem_cons_self

theorem Separated.stops (hs : Separated s) : Stops isBlank s ∧ Stops isTokenOctet s := by
  constructor
  · intro c hc
    rcases hs c hc with rfl | rfl <;> rfl
  · intro c hc
    rcases hs c hc with rfl | rfl <;> decide

theorem separated_params (hrest : Ends rest) (ps : List Param) :
    Separated (ps.flatMap Param.text ++ rest) := by
  cases ps with
  | nil => exact fun c hc => .inl (hrest c hc)
  | cons p ps => exact fun c hc => .inr (some.inj hc).symm

theorem Blanks.not_token (b : Blanks) : ∀ c ∈ b.1, isTokenOctet c = false := by
  intro c hc
  by_contra hne
  have hblank := all_eq_true.1 b.2 c hc
  rw [(isTokenOctet_ne (Bool.not_eq_false _ ▸ hne)).1] at hblank
  cases hblank

theorem Token.stops (t : Token) (s : Bytes) : Stops isBlank (t.1 ++ s) := by
  obtain ⟨c, cs, hcs⟩ := exists_cons_of_ne_nil t.2.1
  intro d hd
  rw [hcs] at hd
  cases hd
  exact (isTokenOctet_ne (all_eq_true.1 t.2.2 c (hcs ▸ mem_cons_self))).1

theorem nextTokenOrQuoted_token {t : Bytes} (ht : t.all isTokenOctet = true)
    (hs : Stops isTokenOctet s)
    (hq : (t ++ s).head? ≠ some DQUOTE) : nextTokenOrQuoted (t ++ s) = some (t, s) := by
  rw [nextTokenOrQuoted, if_neg hq, nextToken_append ht hs]

theorem nextValue_absent (after : Blanks) (hs : Stops isBlank s) (hne : s.head? ≠ some EQUALS) :
    nextValue (after.1 ++ s) = some ([], s) := by
  simp only [nextValue, skipSpace_append after.2 hs, Option.bind_eq_bind, bind_some, if_neg hne]
  rfl

theorem nextValue_equals (after before last : Blanks) {x v z : Bytes} (hx : Stops isBlank x)
    (hv : nextTokenOrQuoted x = some (v, last.1 ++ z)) (hz : Stops isBlank z) :
    nextValue (after.1 ++ EQUALS :: (before.1 ++ x)) = some (v, z) := by
  have hstop : Stops isBlank (EQUALS :: (before.1 ++ x)) := by
    intro c hc
    cases hc
    rfl
  simp only [nextValue, skipSpace_append after.2 hstop, Option.bind_eq_bind, bind_some,
    sliceFrom_cons, skipSpace_append before.2 hx, hv, skipSpace_append last.2 hz]
  rfl

theorem nextValue_text (after last : Blanks) {v : Value} (hs : Separated s)
    (hlast : v.isUnclosed = true → last.1 ++ s = []) :
    nextValue (after.1 ++ (v.text ++ (last.1 ++ s))) = some (v.bytes, s) := by
  obtain ⟨hblank, htoken⟩ := hs.stops
  have hq : s.head? ≠ some DQUOTE := fun h => by rcases hs _ h with h | h <;> cases h
  cases v with
  | absent =>
    have hall : (after.1 ++ last.1).all isBlank = true := by
      rw [all_append, after.2, last.2]
      rfl
    have he : s.head? ≠ some EQUALS := fun h => by rcases hs _ h with h | h <;> cases h
    have habsent := nextValue_absent ⟨_, hall⟩ hblank he
    rwa [append_assoc] at habsent
  | token b t =>
    have hquote : (t.1 ++ (last.1 ++ s)).head? ≠ some DQUOTE := by
      obtain ⟨c, cs, hcs⟩ := exists_cons_of_ne_nil t.2.1
      rw [hcs]
      intro h
      have hc := all_eq_true.1 t.2.2 c (hcs ▸ mem_cons_self)
      exact (isTokenOctet_ne hc).2.1 (some.inj h)
    have hread := nextTokenOrQuoted_token t.2.2 (htoken.append last.not_token) hquote
    have hvalue := nextValue_equals after b last (t.stops _) hread hblank
    rw [Value.text, cons_append, append_assoc]
    exact hvalue
  | quoted b body =>
    have hread := nextTokenOrQuoted_quoted (.closed (last.1 ++ s)) body
    have hvalue := nextValue_equals after b last (fun c hc => by cases hc; rfl) hread hblank
    rw [Value.text, cons_append, append_assoc, cons_append, append_assoc]
    exact hvalue
  | missing b =>
    have hall : (b.1 ++ last.1).all isBlank = true := by
      rw [all_append, b.2, last.2]
      rfl
    have hread := nextTokenOrQuoted_token (t := []) rfl htoken hq
    have hvalue := nextValue_equals after ⟨_, hall⟩ ⟨[], rfl⟩ hblank hread hblank
    rwa [append_assoc] at hvalue
  | unclosed b body dangling =>
    have hnil := hlast rfl
    obtain ⟨hl, rfl⟩ := append_eq_nil_iff.1 hnil
    have hread := nextTokenOrQuoted_quoted (.unclosed dangling) body
    have hvalue := nextValue_equals after b ⟨[], rfl⟩ (fun c hc => by cases hc; rfl) hread hblank
    rw [hl, append_nil, append_nil]
    exact hvalue

theorem exists_value (s : Bytes) : ∃ (after : Blanks) (v : Value) (last : Blanks) (rest : Bytes),
    s = after.1 ++ (v.text ++ (last.1 ++ rest)) ∧ nextValue s = some (v.bytes, rest) ∧
      (v.isUnclosed = true → last.1 ++ rest = []) := by
  obtain ⟨a, s₁, rfl, ha, hs₁⟩ := exists_scan isBlank s
  by_cases he : s₁.head? = some EQUALS
  · obtain ⟨s₂, rfl⟩ := List.head?_eq_some_iff.1 he
    obtain ⟨b, s₃, rfl, hb, hs₃⟩ := exists_scan isBlank s₂
    by_cases hq : s₃.head? = some DQUOTE
    · obtain ⟨s₄, rfl⟩ := List.head?_eq_some_iff.1 hq
      obtain ⟨body, tail, r, rfl, htail⟩ := exists_quoted s₄
      have hread := nextTokenOrQuoted_quoted htail body
      cases htail with
      | closed rest =>
        obtain ⟨l, z, rfl, hl, hz⟩ := exists_scan isBlank rest
        refine ⟨⟨a, ha⟩, .quoted ⟨b, hb⟩ body, ⟨l, hl⟩, z, by simp [Value.text],
          nextValue_equals ⟨a, ha⟩ ⟨b, hb⟩ ⟨l, hl⟩ hs₃ hread hz, fun h => by cases h⟩
      | unclosed dangling =>
        exact ⟨⟨a, ha⟩, .unclosed ⟨b, hb⟩ body dangling, ⟨[], rfl⟩, [], by simp [Value.text],
          nextValue_equals ⟨a, ha⟩ ⟨b, hb⟩ ⟨[], rfl⟩ hs₃ hread (fun c hc => by cases hc),
            fun _ => rfl⟩
    · obtain ⟨t, s₄, rfl, ht, hs₄⟩ := exists_scan isTokenOctet s₃
      obtain ⟨l, z, rfl, hl, hz⟩ := exists_scan isBlank s₄
      have hread := nextTokenOrQuoted_token ht hs₄ hq
      have hvalue := nextValue_equals ⟨a, ha⟩ ⟨b, hb⟩ ⟨l, hl⟩ hs₃ hread hz
      by_cases hne : t = []
      · subst hne
        exact ⟨⟨a, ha⟩, .missing ⟨b, hb⟩, ⟨l, hl⟩, z, by simp [Value.text], hvalue,
          fun h => by cases h⟩
      · exact ⟨⟨a, ha⟩, .token ⟨b, hb⟩ ⟨t, hne, ht⟩, ⟨l, hl⟩, z, by simp [Value.text], hvalue,
          fun h => by cases h⟩
  · exact ⟨⟨a, ha⟩, .absent, ⟨[], rfl⟩, s₁, rfl, nextValue_absent ⟨a, ha⟩ hs₁ he,
      fun h => by cases h⟩

theorem startsElse_of_separated (hs : Separated s) :
    startsElse s [COMMA, SEMICOLON] = some false := by
  cases s with
  | nil => rfl
  | cons c s => rcases hs c rfl with rfl | rfl <;> rfl

theorem exists_startsElse (s cs : Bytes) : ∃ stop, startsElse s cs = some stop := by
  cases s with
  | nil => exact ⟨false, rfl⟩
  | cons c s => exact ⟨_, rfl⟩

theorem nextParams_stop (fuel : Nat) (b : Blanks) (ext : ExtMap) (hs : Stops isBlank s)
    (hne : s.head? ≠ some SEMICOLON) :
    nextParams (fuel + 1) (b.1 ++ s) ext = some (some (ext, s)) := by
  simp only [nextParams, skipSpace_append b.2 hs, Option.bind_eq_bind, bind_some, if_neg hne]
  rfl

theorem nextParams_step (fuel : Nat) (b before : Blanks) {k : Bytes} (ext : ExtMap)
    (hblank : Stops isBlank (k ++ s)) (hk : k.all isTokenOctet = true) (hs : Stops isTokenOctet s) :
    nextParams (fuel + 1) (b.1 ++ SEMICOLON :: (before.1 ++ (k ++ s))) ext =
      if k = [] then some none
      else (nextValue s).bind fun x => (startsElse x.2 [COMMA, SEMICOLON]).bind fun stop =>
        if stop then some none else nextParams fuel x.2 (ext.set k x.1) := by
  have hstop : Stops isBlank (SEMICOLON :: (before.1 ++ (k ++ s))) := by
    intro c hc
    cases hc
    rfl
  rw [nextParams, skipSpace_append b.2 hstop]
  simp only [Option.bind_eq_bind, bind_some, sliceFrom_cons,
    skipSpace_append before.2 hblank, nextToken_append hk hs]
  rfl

theorem Param.key_stops (p : Param) (hs : Separated s) :
    Stops isTokenOctet (p.after.1 ++ (p.value.text ++ (p.last.1 ++ s))) := by
  refine Stops.append ?_ p.after.not_token
  have hbehind := hs.stops.2.append p.last.not_token
  cases hv : p.value with
  | absent => exact hbehind
  | _ =>
    intro c hc
    cases hc
    decide

theorem Param.text_ne (p : Param) : p.text ≠ [] := cons_ne_nil _ _

theorem nextParams_text (b : Blanks) (ext : ExtMap) (hrest : Ends rest)
    (hlast : UnclosedLast ps rest) (hfuel : ps.length < fuel) :
    nextParams fuel (b.1 ++ (ps.flatMap Param.text ++ rest)) ext =
      some (some (ps.foldl (fun m p => m.set p.key.1 p.value.bytes) ext, rest)) := by
  induction ps generalizing fuel b ext with
  | nil =>
    obtain ⟨fuel, rfl⟩ := Nat.exists_eq_succ_of_ne_zero (Nat.ne_of_gt hfuel)
    have hsep : Separated rest := separated_params hrest []
    exact nextParams_stop fuel b ext hsep.stops.1 fun h => by cases hrest _ h
  | cons p ps ih =>
    obtain ⟨fuel, rfl⟩ := Nat.exists_eq_succ_of_ne_zero (Nat.ne_of_gt (Nat.zero_lt_of_lt hfuel))
    have hsep := separated_params hrest ps
    have hnext :=
      ih ⟨[], rfl⟩ (ext.set p.key.1 p.value.bytes) hlast.2 (Nat.lt_of_succ_lt_succ hfuel)
    have hstep := nextParams_step fuel b p.before ext (p.key.stops _) p.key.2.2 (p.key_stops hsep)
    rw [if_neg p.key.2.1, nextValue_text p.after p.last hsep hlast.1, bind_some,
      startsElse_of_separated hsep, bind_some, if_neg Bool.false_ne_true] at hstep
    rw [flatMap_cons, foldl_cons, ← hnext, nil_append, ← hstep]
    simp only [Param.text, cons_append, append_assoc]

theorem nextParams_cases (ext : ExtMap) (hfuel : s.length < fuel) :
    ∃ r, nextParams fuel s ext = some r ∧ ∀ ext' rest, r = some (ext', rest) →
      ∃ (b : Blanks) (ps : List Param), s = b.1 ++ (ps.flatMap Param.text ++ rest) ∧
        ext' = ps.foldl (fun m p => m.set p.key.1 p.value.bytes) ext ∧ UnclosedLast ps rest := by
  induction fuel generalizing s ext with
  | zero => cases hfuel
  | succ fuel ih =>
    obtain ⟨b, s₁, rfl, hb, hs₁⟩ := exists_scan isBlank s
    by_cases hsemi : s₁.head? = some SEMICOLON
    · obtain ⟨s₂, rfl⟩ := List.head?_eq_some_iff.1 hsemi
      obtain ⟨before, s₃, rfl, hbefore, hs₃⟩ := exists_scan isBlank s₂
      obtain ⟨k, s₄, rfl, hk, hs₄⟩ := exists_scan isTokenOctet s₃
      rw [nextParams_step fuel ⟨b, hb⟩ ⟨before, hbefore⟩ ext hs₃ hk hs₄]
      by_cases hne : k = []
      · exact ⟨none, if_pos hne, fun _ _ h => by cases h⟩
      obtain ⟨after, v, last, rest, rfl, hvalue, hlast⟩ := exists_value s₄
      rw [if_neg hne, hvalue, bind_some]
      obtain ⟨stop, hstop⟩ := exists_startsElse rest [COMMA, SEMICOLON]
      rw [hstop]
      cases stop with
      | true => exact ⟨none, rfl, fun _ _ h => by cases h⟩
      | false =>
        obtain ⟨r, hr, htakes⟩ := ih (s := rest) (ext.set k v.bytes) (by
          simp only [length_append, length_cons] at hfuel
          omega)
        refine ⟨r, hr, fun ext' rest' h => ?_⟩
        obtain ⟨b', ps, rfl, rfl, hps⟩ := htakes ext' rest' h
        have hblank : (last.1 ++ b'.1).all isBlank = true := by
          rw [all_append, last.2, b'.2]
          rfl
        refine ⟨⟨b, hb⟩, ⟨⟨before, hbefore⟩, ⟨k, hne, hk⟩, after, v, ⟨_, hblank⟩⟩ :: ps, ?_,
          rfl, ?_, hps⟩
        · simp [Param.text]
        · rw [append_assoc]
          exact hlast
    · refine ⟨_, nextParams_stop fuel ⟨b, hb⟩ ext hs₁ hsemi, fun ext' rest h => ?_⟩
      cases h
      exact ⟨⟨b, hb⟩, [], rfl, rfl, trivial⟩

/-! ## Extensions -/

theorem ends_nil : Ends [] := fun c (hc : none = some c) => by cases hc

theorem ends_comma (rest : Bytes) : Ends (COMMA :: rest) := fun _ hc => (some.inj hc).symm

theorem startsElse_comma_iff : startsElse s [COMMA] = some false ↔ Ends s := by
  cases s with
  | nil => exact iff_of_true rfl ends_nil
  | cons c s =>
    simp [startsElse, Ends]

theorem Takes.nextExtension_eq (h : Takes s e rest) :
    nextExtension s = some (some (e.toMap, rest)) := by
  obtain ⟨rfl, hends, hlast⟩ := h
  have hsep := separated_params hends e.params
  have hname := hsep.stops.2.append e.after.not_token
  have hfuel : e.params.length <
      (e.after.1 ++ (e.params.flatMap Param.text ++ rest)).length + 1 := by
    have := length_le_flatMap Param.text_ne e.params
    simp only [length_append]
    omega
  simp only [nextExtension, Extension.text, append_assoc,
    skipSpace_append e.before.2 (e.name.stops _), nextToken_append e.name.2.2 hname,
    Option.bind_eq_bind, bind_some, if_neg e.name.2.1,
    nextParams_text e.after _ hends hlast hfuel, startsElse_comma_iff.2 hends]
  rfl

theorem nextExtension_cases (s : Bytes) : ∃ r, nextExtension s = some r ∧
    ∀ m rest, r = some (m, rest) → ∃ e, Takes s e rest := by
  obtain ⟨before, s₁, rfl, hbefore, hs₁⟩ := exists_scan isBlank s
  obtain ⟨t, s₂, rfl, ht, hs₂⟩ := exists_scan isTokenOctet s₁
  obtain ⟨r, hr, htakes⟩ := nextParams_cases [([], t)] (Nat.lt_succ_self s₂.length)
  simp only [nextExtension, skipSpace_append hbefore hs₁, nextToken_append ht hs₂,
    Option.bind_eq_bind, bind_some, hr]
  by_cases hne : t = []
  · exact ⟨none, if_pos hne, fun _ _ h => by cases h⟩
  rw [if_neg hne]
  match r, htakes with
  | none, _ => exact ⟨none, rfl, fun _ _ h => by cases h⟩
  | some (ext, rest), htakes =>
    obtain ⟨after, ps, rfl, -, hlast⟩ := htakes ext rest rfl
    obtain ⟨stop, hstop⟩ := exists_startsElse rest [COMMA]
    dsimp only
    rw [hstop]
    cases stop with
    | true => exact ⟨none, rfl, fun _ _ h => by cases h⟩
    | false =>
      refine ⟨_, rfl, fun m rest' h => ?_⟩
      cases h
      refine ⟨⟨⟨before, hbefore⟩, ⟨t, hne, ht⟩, after, ps⟩, ?_, startsElse_comma_iff.1 hstop, hlast⟩
      simp [Extension.text]

theorem Takes.length_lt (h : Takes s e rest) : rest.length < s.length := by
  have hname := length_pos_iff.2 e.name.2.1
  rw [h.text, Extension.text]
  simp only [length_append]
  omega

end Pieces

/-! ## Values -/

/-- The extensions of a value in front of its first malformed element, and the text from this
element on if there is one. -/
inductive Leading : Bytes → List Extension → Option Bytes → Prop where
  | last {e : Extension} (h : e.wellFormed = true) : Leading e.text [e] none
  | more {e : Extension} {rest : Bytes} {es : List Extension} {malformed : Option Bytes}
    (h : e.wellFormed = true) (hrest : Leading rest es malformed) :
    Leading (e.text ++ COMMA :: rest) (e :: es) malformed
  | malformed {s : Bytes} (h : ∀ (e : Extension) (rest : Bytes), e.wellFormed = true → Ends rest →
      s ≠ e.text ++ rest) : Leading s [] (some s)

variable {es : List Extension}

section Values

variable {s rest : Bytes} {e : Extension}

theorem Value.isUnclosed_of_wellFormed {v : Value} (h : v.wellFormed = true) :
    v.isUnclosed = false := by
  cases v with
  | missing _ | unclosed _ _ _ => cases h
  | _ => rfl

theorem unclosedLast_of_wellFormed {ps : List Param} (h : ps.all (·.value.wellFormed) = true)
    (rest : Bytes) : UnclosedLast ps rest := by
  induction ps with
  | nil => trivial
  | cons p ps ih =>
    rw [all_cons, Bool.and_eq_true] at h
    refine ⟨fun hopen => ?_, ih h.2⟩
    rw [Value.isUnclosed_of_wellFormed h.1] at hopen
    cases hopen

theorem Extension.takes (h : e.wellFormed = true) (hrest : Ends rest) :
    Takes (e.text ++ rest) e rest :=
  ⟨rfl, hrest, unclosedLast_of_wellFormed h rest⟩

/-- Every value has a part in front of its first malformed element. -/
theorem exists_leading (s : Bytes) : ∃ es malformed, Leading s es malformed := by
  induction hn : s.length using Nat.strong_induction_on generalizing s with
  | _ n ih =>
    by_cases h : ∃ (e : Extension) (rest : Bytes), e.wellFormed = true ∧ Ends rest ∧
      s = e.text ++ rest
    · obtain ⟨e, rest, hwf, hends, hs⟩ := h
      have hlt := (hs ▸ e.takes hwf hends : Takes s e rest).length_lt
      cases rest with
      | nil =>
        rw [append_nil] at hs
        exact ⟨[e], none, hs ▸ .last hwf⟩
      | cons c rest =>
        obtain rfl := hends c rfl
        obtain ⟨es, m, hrest⟩ := ih rest.length (by rw [length_cons] at hlt; omega) rest rfl
        exact ⟨e :: es, m, hs ▸ .more hwf hrest⟩
    · exact ⟨[], some s, .malformed fun e rest hwf hends hs => h ⟨e, rest, hwf, hends, hs⟩⟩

theorem parseValue_last (h : Takes s e []) (result : List ExtMap) :
    parseValue (fuel + 1) s result = some (result ++ [e.toMap]) := by
  rw [parseValue, h.nextExtension_eq]
  rfl

theorem parseValue_more (h : Takes s e (COMMA :: rest)) (result : List ExtMap) :
    parseValue (fuel + 1) s result = parseValue fuel rest (result ++ [e.toMap]) := by
  rw [parseValue, h.nextExtension_eq]
  simp only [Option.bind_eq_bind, bind_some, if_neg (cons_ne_nil _ _), sliceFrom_cons]

theorem parseValue_stop (h : ∀ e rest, ¬ Takes s e rest) (result : List ExtMap) :
    parseValue (fuel + 1) s result = some result := by
  obtain ⟨r, hr, htakes⟩ := nextExtension_cases s
  rw [parseValue, hr]
  match r, htakes with
  | none, _ => rfl
  | some (m, rest), htakes =>
    obtain ⟨e, he⟩ := htakes m rest rfl
    exact absurd he (h e rest)

theorem parseValue_extends (hfuel : s.length < fuel) :
    ∃ more, (∀ result, parseValue fuel s result = some (result ++ more)) ∧
      (more = [] ↔ ¬ ∃ e rest, Takes s e rest) := by
  induction fuel generalizing s with
  | zero => cases hfuel
  | succ fuel ih =>
    by_cases h : ∃ e rest, Takes s e rest
    · obtain ⟨e, rest, he⟩ := h
      have hlt := he.length_lt
      have htaken : ¬ ¬ ∃ e rest, Takes s e rest := not_not_intro ⟨e, rest, he⟩
      cases rest with
      | nil =>
        exact ⟨[e.toMap], parseValue_last he, iff_of_false (cons_ne_nil _ _) htaken⟩
      | cons c rest =>
        obtain rfl := he.ends c rfl
        obtain ⟨more, hmore, -⟩ := ih (s := rest) (by rw [length_cons] at hlt; omega)
        refine ⟨e.toMap :: more, fun result => ?_, iff_of_false (cons_ne_nil _ _) htaken⟩
        rw [parseValue_more he, hmore, append_assoc]
        rfl
    · refine ⟨[], fun result => ?_, iff_of_true rfl h⟩
      rw [parseValue_stop (fun e rest he => h ⟨e, rest, he⟩), append_nil]

/-- What is found in a value: the extensions in front of the first malformed element, and no other
if the code does not take this element. -/
theorem parseValue_leading {m : Option Bytes} (h : Leading s es m) (hfuel : s.length < fuel) :
    ∃ more,
      (∀ result, parseValue fuel s result = some (result ++ (es.map Extension.toMap ++ more))) ∧
      (more = [] ↔ ∀ t, m = some t → ¬ ∃ e rest, Takes t e rest) := by
  induction h generalizing fuel with
  | last hwf =>
    obtain ⟨fuel, rfl⟩ := Nat.exists_eq_succ_of_ne_zero (Nat.ne_of_gt (Nat.zero_lt_of_lt hfuel))
    have htakes := Extension.takes hwf ends_nil
    rw [append_nil] at htakes
    exact ⟨[], parseValue_last htakes, iff_of_true rfl fun t ht => by cases ht⟩
  | @more _ rest _ _ hwf hrest ih =>
    obtain ⟨fuel, rfl⟩ := Nat.exists_eq_succ_of_ne_zero (Nat.ne_of_gt (Nat.zero_lt_of_lt hfuel))
    have htakes := Extension.takes hwf (ends_comma rest)
    have hlt := htakes.length_lt
    obtain ⟨more, hmore, hiff⟩ := @ih fuel (by rw [length_cons] at hlt; omega)
    refine ⟨more, fun result => ?_, hiff⟩
    rw [parseValue_more htakes, hmore, append_assoc]
    rfl
  | malformed hnone =>
    obtain ⟨more, hmore, htaken⟩ := parseValue_extends hfuel
    refine ⟨more, hmore, htaken.trans ⟨fun hno t ht => ?_, fun hno => hno _ rfl⟩⟩
    cases ht
    exact hno

def found (s : Bytes) : List ExtMap := (parseValue (s.length + 1) s []).getD []

theorem parseValue_found (s : Bytes) (result : List ExtMap) :
    parseValue (s.length + 1) s result = some (result ++ found s) := by
  obtain ⟨more, hmore, -⟩ := parseValue_extends (Nat.lt_succ_self s.length)
  rw [hmore, found, hmore]
  rfl

theorem found_leading {m : Option Bytes} (h : Leading s es m) :
    ∃ more, found s = es.map Extension.toMap ++ more ∧
      (more = [] ↔ ∀ t, m = some t → ¬ ∃ e rest, Takes t e rest) := by
  obtain ⟨more, hmore, hiff⟩ := parseValue_leading h (Nat.lt_succ_self s.length)
  refine ⟨more, ?_, hiff⟩
  rw [found, hmore]
  rfl

theorem parseExtensions_eq (header : Header) :
    parseExtensions header = some ((extensionValues header).flatMap found) := by
  have hfold : ∀ (values : List Bytes) (result : List ExtMap),
      values.foldlM (fun result s => parseValue (s.length + 1) s result) result =
        some (result ++ values.flatMap found) := by
    intro values
    induction values with
    | nil => intro result; rw [flatMap_nil, append_nil]; rfl
    | cons s values ih =>
      intro result
      rw [foldlM_cons, parseValue_found, Option.bind_eq_bind, bind_some, ih,
        flatMap_cons, append_assoc]
  exact hfold _ []

end Values

/-! ## Formatted values -/

def valueText : List Extension → Bytes
  | [] => []
  | [e] => e.text
  | e :: es => e.text ++ COMMA :: valueText es

/-- The parameters of an extension in their order, its name in front. -/
def Extension.entries (e : Extension) : ExtMap :=
  ([], e.name.1) :: e.params.map fun p => (p.key.1, p.value.bytes)

theorem ExtMap.set_of_new {m : ExtMap} {k : Bytes} (h : k ∉ m.map Prod.fst) (v : Bytes) :
    m.set k v = m ++ [(k, v)] := by
  refine if_neg fun hany => h ?_
  obtain ⟨kv, hkv, heq⟩ := any_eq_true.1 hany
  exact beq_iff_eq.1 heq ▸ mem_map_of_mem hkv

theorem Extension.toMap_eq (h : (e.params.map (·.key.1)).Nodup) :
    e.toMap = e.entries := by
  have hset : ∀ (ps : List Param) (m : ExtMap), (ps.map (·.key.1)).Nodup →
      (∀ p ∈ ps, p.key.1 ∉ m.map Prod.fst) →
      ps.foldl (fun m p => m.set p.key.1 p.value.bytes) m =
        m ++ ps.map fun p => (p.key.1, p.value.bytes) := by
    intro ps
    induction ps with
    | nil => intro m _ _; rw [map_nil, append_nil]; rfl
    | cons p ps ih =>
      intro m hnodup hnew
      rw [map_cons, nodup_cons] at hnodup
      rw [foldl_cons, ExtMap.set_of_new (hnew p mem_cons_self), ih _ hnodup.2, append_assoc]
      · rfl
      · intro q hq hmem
        rw [map_append, mem_append] at hmem
        rcases hmem with hmem | hmem
        · exact hnew q (mem_cons_of_mem _ hq) hmem
        · have hkey : q.key.1 = p.key.1 := mem_singleton.1 hmem
          exact hnodup.1 (hkey ▸ mem_map_of_mem hq)
  refine hset e.params _ h fun p _ hmem => p.key.2.1 ?_
  simpa using hmem

theorem Takes.ne_nil {rest : Bytes} (h : Takes s e rest) : s ≠ [] := by
  rintro rfl
  exact Nat.not_lt_zero _ h.length_lt

theorem found_valueText (hwf : ∀ e ∈ es, e.wellFormed = true) :
    found (valueText es) = es.map Extension.toMap := by
  have hleading : ∃ m, Leading (valueText es) es m ∧ ∀ t, m = some t →
      ¬ ∃ e rest, Takes t e rest := by
    induction es with
    | nil =>
      have hnone : ¬ ∃ e rest, Takes [] e rest := fun ⟨_, _, h⟩ => h.ne_nil rfl
      refine ⟨some [], .malformed fun e rest he hends h => hnone ⟨e, rest, ?_⟩, fun t ht => ?_⟩
      · rw [show [] = e.text ++ rest from h]
        exact e.takes he hends
      · cases ht
        exact hnone
    | cons e es ih =>
      obtain ⟨m, hm, hnot⟩ := ih fun e he => hwf e (mem_cons_of_mem _ he)
      have he := hwf e mem_cons_self
      cases es with
      | nil => exact ⟨none, .last he, fun t ht => by cases ht⟩
      | cons e' es => exact ⟨m, .more he hm, hnot⟩
  obtain ⟨m, hm, hnot⟩ := hleading
  obtain ⟨more, hfound, hiff⟩ := found_leading hm
  rw [hfound, hiff.2 hnot, append_nil]

/-! ## What is returned -/

/-- The part of a result that was found in a value has only extensions that precede its first
malformed element. -/
def Precedes (s : Bytes) (part : List ExtMap) : Prop :=
  ∃ es m, Leading s es m ∧ part <+: es.map Extension.toMap

/-- The first malformed element of the value, if there is one, is not of the kinds that the code
takes for an extension. -/
def Sound (s : Bytes) : Prop :=
  ∃ es m, Leading s es m ∧ ∀ t, m = some t → ¬ ∃ e rest, Takes t e rest

theorem Sound.precedes (h : Sound s) : Precedes s (found s) := by
  obtain ⟨es, m, hleading, hnot⟩ := h
  obtain ⟨more, hfound, hiff⟩ := found_leading hleading
  exact ⟨es, m, hleading, [], by rw [append_nil, hfound, hiff.2 hnot, append_nil]⟩

theorem forall₂_precedes {values : List Bytes} {parts : List (List ExtMap)}
    (h : List.Forall₂ Precedes values parts) :
    parts.flatten.length ≤ (values.flatMap found).length ∧
      (parts.flatten.length = (values.flatMap found).length → ∀ s ∈ values, Sound s) := by
  induction h with
  | nil => exact ⟨Nat.le_refl _, fun _ s hs => by cases hs⟩
  | @cons s part values parts hpart _ ih =>
    obtain ⟨es, m, hleading, hprefix⟩ := hpart
    obtain ⟨more, hfound, hiff⟩ := found_leading hleading
    have hle := hprefix.length_le
    rw [flatten_cons, flatMap_cons, hfound]
    simp only [length_append]
    refine ⟨by omega, fun heq => ?_⟩
    have hmore : more = [] := length_eq_zero_iff.1 (by omega)
    intro t ht
    rcases mem_cons.1 ht with rfl | ht
    · exact ⟨es, m, hleading, hiff.1 hmore⟩
    · exact ih.2 (by omega) t ht

/-- Formatted extensions are read back: whatever the blanks, and whether a value is a token or
quoted, over any number of header values.  For every header the parser returns, and what it returns
precedes the malformed elements if and only if every value is sound. -/
theorem parseExtensions_sound_iff (header : Header) :
    (∀ groups : List (List Extension),
      (∀ es ∈ groups, ∀ e ∈ es, e.wellFormed = true ∧ (e.params.map (·.key.1)).Nodup) →
      extensionValues header = groups.map valueText →
      parseExtensions header = some (groups.flatten.map Extension.entries)) ∧
    ∃ result, parseExtensions header = some result ∧
      ((∃ parts, result = parts.flatten ∧ List.Forall₂ Precedes (extensionValues header) parts) ↔
        ∀ s ∈ extensionValues header, Sound s) := by
  refine ⟨fun groups hgroups hvalues => ?_, _, parseExtensions_eq header, ?_, fun hsound => ?_⟩
  · rw [parseExtensions_eq, hvalues]
    congr 1
    clear hvalues
    induction groups with
    | nil => rfl
    | cons es groups ih =>
      have hes := hgroups es mem_cons_self
      rw [map_cons, flatMap_cons, ih fun es' h => hgroups es' (mem_cons_of_mem _ h),
        found_valueText fun e he => (hes e he).1, flatten_cons, map_append]
      congr 1
      exact map_congr_left fun e he => Extension.toMap_eq (hes e he).2
  · rintro ⟨parts, hparts, hprecedes⟩
    exact (forall₂_precedes hprecedes).2 (congrArg length hparts).symm
  · refine ⟨(extensionValues header).map found, flatMap_def, ?_⟩
    generalize extensionValues header = values at hsound
    induction values with
    | nil => exact .nil
    | cons s values ih =>
      exact .cons (hsound s mem_cons_self).precedes
        (ih fun s' h => hsound s' (mem_cons_of_mem _ h))

def quotedComma : Extension where
  before := ⟨[], rfl⟩
  name := ⟨ascii "foo", by decide, by decide⟩
  after := ⟨[SP], rfl⟩
  params := [{
    before := ⟨[HT], rfl⟩
    key := ⟨ascii "a", by decide, by decide⟩
    after := ⟨[], rfl⟩
    value := .quoted ⟨[], rfl⟩ [⟨DQUOTE, true, .inl rfl⟩, ⟨COMMA, false, .inr (by decide)⟩]
    last := ⟨[], rfl⟩ }]

theorem parseExtensions_quotedComma :
    parseExtensions [(ascii "Sec-Websocket-Extensions", [quotedComma.text])] =
      some [[([], ascii "foo"), (ascii "a", [DQUOTE, COMMA])]] := by
  refine (parseExtensions_sound_iff _).1 [[quotedComma]] (fun es hes e he => ?_) rfl
  cases mem_singleton.1 hes
  cases mem_singleton.1 he
  exact ⟨rfl, by decide⟩

/-! ## A quoted string that is not closed -/

theorem Blanks.count_dquote (b : Blanks) : b.1.count DQUOTE = 0 := by
  refine count_eq_zero.2 fun hmem => ?_
  cases all_eq_true.1 b.2 DQUOTE hmem

theorem Token.count_dquote (t : Token) : t.1.count DQUOTE = 0 :=
  count_eq_zero.2 fun hmem => (isTokenOctet_ne (all_eq_true.1 t.2.2 DQUOTE hmem)).2.1 rfl

theorem Value.count_dquote {v : Value} (h : v.wellFormed = true) :
    v.text.count DQUOTE = 0 ∨ 2 ≤ v.text.count DQUOTE := by
  cases v with
  | absent => exact .inl rfl
  | token b t =>
    rw [Value.text, count_cons_of_ne (by decide), count_append, b.count_dquote, t.count_dquote]
    exact .inl rfl
  | quoted b body =>
    rw [Value.text, count_cons_of_ne (by decide), count_append, count_cons_self,
      count_append, count_singleton_self]
    omega
  | missing b | unclosed b body dangling => cases h

theorem Extension.count_dquote (h : e.wellFormed = true) : e.text.count DQUOTE ≠ 1 := by
  have hparams : ∀ ps : List Param, ps.all (·.value.wellFormed) = true →
      (ps.flatMap Param.text).count DQUOTE = 0 ∨ 2 ≤ (ps.flatMap Param.text).count DQUOTE := by
    intro ps
    induction ps with
    | nil => exact fun _ => .inl rfl
    | cons p ps ih =>
      intro hall
      rw [all_cons, Bool.and_eq_true] at hall
      have hvalue := Value.count_dquote hall.1
      have hps := ih hall.2
      rw [flatMap_cons, count_append, Param.text, count_cons_of_ne (by decide)]
      simp only [count_append, Blanks.count_dquote, Token.count_dquote]
      omega
  have hps := hparams e.params h
  rw [Extension.text]
  simp only [count_append, Blanks.count_dquote, Token.count_dquote]
  omega

/-- An extension whose quoted string is not closed is returned, with an empty value. -/
theorem unclosed_quote_returned :
    let s := ascii "foo;a=" ++ [DQUOTE, 120]
    let result := [[([], ascii "foo"), (ascii "a", [])]]
    parseExtensions [(ascii "Sec-Websocket-Extensions", [s])] = some result ∧
      ¬ ∃ parts, result = parts.flatten ∧ List.Forall₂ Precedes [s] parts := by
  intro s result
  have hfound : found s = result := by decide +kernel
  have hvalues : [s].flatMap found = result := by rw [flatMap_singleton, hfound]
  refine ⟨(parseExtensions_eq _).trans (congrArg some hvalues),
    fun ⟨parts, hparts, hprecedes⟩ => ?_⟩
  have hlen : parts.flatten.length = ([s].flatMap found).length := by rw [hvalues, hparts]
  obtain ⟨es, m, hleading, hnot⟩ := (forall₂_precedes hprecedes).2 hlen s mem_cons_self
  obtain ⟨more, hmore, hiff⟩ := found_leading hleading
  rw [hfound, hiff.2 hnot] at hmore
  generalize hs : s = s' at hleading
  cases hleading with
  | last hwf => exact Extension.count_dquote hwf (hs ▸ by decide)
  | more hwf hrest =>
    have hcomma : COMMA ∉ s := by decide
    exact hcomma (by simp [hs])
  | malformed h => exact cons_ne_nil _ _ hmore

end Nbio.Websocket
