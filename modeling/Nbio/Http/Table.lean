import Nbio.Go.Strconv

/-!
# Character tables and methods
-/

namespace Nbio.Http

open Nbio.Go

def validMethods : List Bytes :=
  [ascii "OPTIONS", ascii "GET", ascii "HEAD", ascii "POST", ascii "PUT", ascii "DELETE",
    ascii "TRACE", ascii "CONNECT", ascii "PATCH", ascii "PRI"]

/-- The bytes set in `tokenCharMap`. -/
def tokenChars : Bytes :=
  ascii "!#$%&'*+-.0123456789ABCDEFGHIJKLMNOPQRSTUWVXYZ^_`abcdefghijklmnopqrstuvwxyz|~"

def isAlpha (c : UInt8) : Bool := isUpper c || isLower c

def isNum (c : UInt8) : Bool := 48 ≤ c && c ≤ 57

def isHex (c : UInt8) : Bool := isNum c || (65 ≤ c && c ≤ 70) || (97 ≤ c && c ≤ 102)

def isToken (c : UInt8) : Bool := tokenChars.contains c

def isValidMethod (m : Bytes) : Bool := validMethods.contains (toUpper m)

/-- `validMethodCharMap` is filled from the methods' letters and the letters 32 above. -/
def isValidMethodChar (c : UInt8) : Bool :=
  validMethods.any fun m => m.any fun x => c == x || c == x + 32

theorem isNum_digit {c : UInt8} (h : isNum c = true) : ∃ d, digitVal c = some d ∧ d < 10 := by
  have hb : (48 ≤ c && c ≤ 57) = true := h
  refine ⟨c.toNat - 48, ?_, ?_⟩
  · rw [digitVal, if_pos hb]
  · simp only [Bool.and_eq_true, decide_eq_true_eq, UInt8.le_iff_toNat_le] at hb
    have h57 : (57 : UInt8).toNat = 57 := rfl
    omega

end Nbio.Http
