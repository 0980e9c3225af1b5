import Mathlib.Algebra.Order.Ring.Int
import Mathlib.Data.List.DropRight

/-!
# Byte strings of the Go library

Go strings and byte slices are lists of bytes.  The functions of `strings`,
`net/textproto` and `net/http` that the repository calls are written out here as their
documentation describes them.
-/

namespace Nbio.Go

open List

/-- A Go string or byte slice. -/
abbrev Bytes := List UInt8

def ascii (s : String) : Bytes := s.toList.map fun c => c.toNat.toUInt8

/-- The slice expression `data[lo:hi]`; `none` is the bounds panic. -/
def slice (data : Bytes) (lo hi : Nat) : Option Bytes :=
  if lo ≤ hi ∧ hi ≤ data.length then some ((data.drop lo).take (hi - lo)) else none

def isUpper (c : UInt8) : Bool := 65 ≤ c && c ≤ 90

def isLower (c : UInt8) : Bool := 97 ≤ c && c ≤ 122

/-- `strings.ToUpper` on ASCII text, the only text it is applied to here. -/
def toUpper (s : Bytes) : Bytes := s.map fun c => if isLower c then c - 32 else c

/-- `strings.ToLower`, as far as a comparison of the result with an ASCII text can tell:
besides the ASCII letters, two code points have an ASCII lower case, the Kelvin sign
U+212A and the dotted capital I U+0130. -/
def toLower : Bytes → Bytes
  | [] => []
  | 0xE2 :: 0x84 :: 0xAA :: rest => 0x6B :: toLower rest
  | 0xC4 :: 0xB0 :: rest => 0x69 :: toLower rest
  | c :: rest => (if isUpper c then c + 32 else c) :: toLower rest

def isASCIISpace (c : UInt8) : Bool := c == 32 || c == 9 || c == 10 || c == 13

/-- `textproto.TrimString`. -/
def trimString (s : Bytes) : Bytes := (s.dropWhile isASCIISpace).rdropWhile isASCIISpace

/-- The bytes `net/textproto` accepts in a header field name. -/
def validHeaderFieldByte (c : UInt8) : Bool :=
  isUpper c || isLower c || (48 ≤ c && c ≤ 57) || (ascii "!#$%&'*+-.^_`|~").contains c

/-- The second loop of `textproto.canonicalMIMEHeaderKey`: upper case at the start and
after a dash, lower case elsewhere. -/
def canonicalize : Bool → Bytes → Bytes
  | _, [] => []
  | upper, c :: rest =>
    let c' := if upper && isLower c then c - 32
      else if !upper && isUpper c then c + 32 else c
    c' :: canonicalize (c' == 45) rest

/-- `http.CanonicalHeaderKey`: a key with a byte outside the field name bytes is returned
unchanged. -/
def canonicalHeaderKey (s : Bytes) : Bytes :=
  if s.all validHeaderFieldByte then canonicalize true s else s

theorem slice_eq {data : Bytes} {lo hi : Nat} (h : lo ≤ hi) (h' : hi ≤ data.length) :
    slice data lo hi = some ((data.drop lo).take (hi - lo)) := by
  simp only [slice, h, h', and_self, ↓reduceIte]

/-! ## Canonical keys -/

def capital (upper : Bool) (c : UInt8) : UInt8 :=
  if upper && isLower c then c - 32 else if !upper && isUpper c then c + 32 else c

theorem canonicalize_cons (upper : Bool) (c : UInt8) (s : Bytes) :
    canonicalize upper (c :: s) = capital upper c :: canonicalize (capital upper c == 45) s :=
  rfl

theorem capital_capital (upper : Bool) (c : UInt8) :
    capital upper (capital upper c) = capital upper c := by
  have h : ∀ (u : Bool) (n : Fin 256),
      capital u (capital u (UInt8.ofFin n)) = capital u (UInt8.ofFin n) := by decide +kernel
  exact h upper c.toFin

theorem validHeaderFieldByte_capital (upper : Bool) (c : UInt8) :
    validHeaderFieldByte (capital upper c) = validHeaderFieldByte c := by
  have h : ∀ (u : Bool) (n : Fin 256), validHeaderFieldByte (capital u (UInt8.ofFin n)) =
      validHeaderFieldByte (UInt8.ofFin n) := by decide +kernel
  exact h upper c.toFin

theorem canonicalize_canonicalize (upper : Bool) (s : Bytes) :
    canonicalize upper (canonicalize upper s) = canonicalize upper s := by
  induction s generalizing upper with
  | nil => rfl
  | cons c s ih => rw [canonicalize_cons, canonicalize_cons, capital_capital, ih]

theorem all_valid_canonicalize (upper : Bool) (s : Bytes) :
    (canonicalize upper s).all validHeaderFieldByte = s.all validHeaderFieldByte := by
  induction s generalizing upper with
  | nil => rfl
  | cons c s ih =>
    rw [canonicalize_cons, all_cons, all_cons, ih, validHeaderFieldByte_capital]

theorem canonicalHeaderKey_canonicalHeaderKey (s : Bytes) :
    canonicalHeaderKey (canonicalHeaderKey s) = canonicalHeaderKey s := by
  unfold canonicalHeaderKey
  by_cases hs : s.all validHeaderFieldByte = true
  · rw [if_pos hs, all_valid_canonicalize, if_pos hs, canonicalize_canonicalize]
  · rw [if_neg hs, if_neg hs]

theorem canonicalHeaderKey_ne_nil {s : Bytes} (h : s ≠ []) : canonicalHeaderKey s ≠ [] := by
  obtain ⟨c, cs, rfl⟩ := exists_cons_of_ne_nil h
  unfold canonicalHeaderKey
  split
  · exact cons_ne_nil _ _
  · exact cons_ne_nil _ _

theorem eq_of_canonicalHeaderKey_eq {s t : Bytes} (h : canonicalHeaderKey s = canonicalHeaderKey t)
    (hs : ¬ s.all validHeaderFieldByte = true) : s = t := by
  unfold canonicalHeaderKey at h
  rw [if_neg hs] at h
  by_cases ht : t.all validHeaderFieldByte = true
  · rw [if_pos ht] at h
    rw [h, all_valid_canonicalize] at hs
    exact absurd ht hs
  · rwa [if_neg ht] at h

theorem trimString_of_valid {s : Bytes} (hs : s.all validHeaderFieldByte = true) :
    trimString s = s := by
  have hspace : ∀ n : Fin 256, validHeaderFieldByte (UInt8.ofFin n) = true →
      isASCIISpace (UInt8.ofFin n) = false := by decide +kernel
  have hno : ∀ c ∈ s, ¬ isASCIISpace c = true := fun c hc h =>
    Bool.false_ne_true ((hspace c.toFin (all_eq_true.1 hs c hc)).symm.trans h)
  rw [trimString, dropWhile_eq_self_iff.2 fun hlen => hno _ (getElem_mem hlen)]
  exact rdropWhile_eq_self_iff.2 fun hne => hno _ (getLast_mem hne)

theorem trimString_trimString (s : Bytes) : trimString (trimString s) = trimString s := by
  have hfront : (trimString s).dropWhile isASCIISpace = trimString s := by
    unfold trimString
    obtain ⟨rest, hrest⟩ := rdropWhile_prefix isASCIISpace (s.dropWhile isASCIISpace)
    have hself := dropWhile_idempotent isASCIISpace s
    generalize (s.dropWhile isASCIISpace).rdropWhile isASCIISpace = t at hrest
    rw [← hrest] at hself
    cases t with
    | nil => rfl
    | cons c t =>
      have hc := dropWhile_eq_self_iff.1 hself (Nat.zero_lt_succ _)
      exact dropWhile_cons_of_neg hc
  rw [trimString, hfront, trimString, rdropWhile_idempotent]

end Nbio.Go
