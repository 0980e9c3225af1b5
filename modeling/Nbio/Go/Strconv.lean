import Nbio.Go.Text

/-!
# `strconv`

Integer parsing and formatting, with the range checks of the Go library.
-/

namespace Nbio.Go

open List

inductive NumError where
  | badSyntax
  | range
deriving DecidableEq, Repr

/-- The value of a digit byte in bases up to 36. -/
def digitVal (c : UInt8) : Option Nat :=
  if 48 ≤ c && c ≤ 57 then some (c.toNat - 48)
  else if isLower c then some (c.toNat - 87)
  else if isUpper c then some (c.toNat - 55)
  else none

/-- The digit loop of `strconv.ParseUint`. -/
def parseUintLoop (base maxVal : Nat) : Nat → Bytes → Except NumError Nat
  | n, [] => .ok n
  | n, c :: cs =>
    match digitVal c with
    | none => .error .badSyntax
    | some d =>
      if base ≤ d then .error .badSyntax
      else if maxVal < n * base + d then .error .range
      else parseUintLoop base maxVal (n * base + d) cs

/-- `strconv.ParseUint` for a base other than 0. -/
def parseUint (s : Bytes) (base bitSize : Nat) : Except NumError Nat :=
  if s = [] then .error .badSyntax else parseUintLoop base (2 ^ bitSize - 1) 0 s

/-- `strconv.ParseInt` for a base other than 0. -/
def parseInt (s : Bytes) (base bitSize : Nat) : Except NumError Int :=
  match s with
  | [] => .error .badSyntax
  | c :: cs =>
    let neg := c == 45
    let digits := if c == 43 || c == 45 then cs else s
    match parseUint digits base bitSize with
    | .error e => .error e
    | .ok un =>
      let cutoff := 2 ^ (bitSize - 1)
      if !neg && cutoff ≤ un then .error .range
      else if neg && cutoff < un then .error .range
      else if neg then .ok (-(un : Int)) else .ok un

/-- `strconv.Atoi` on a 64-bit machine. -/
def atoi (s : Bytes) : Except NumError Int := parseInt s 10 64

/-! ## Digit strings -/

def IsDigits (base : Nat) (s : Bytes) : Prop := ∀ c ∈ s, ∃ d, digitVal c = some d ∧ d < base

/-- The number a digit string continues `n` to. -/
def digitsVal (base : Nat) (n : Nat) (s : Bytes) : Nat :=
  s.foldl (fun n c => n * base + (digitVal c).getD 0) n

theorem digitsVal_cons (base n : Nat) (c : UInt8) (s : Bytes) :
    digitsVal base n (c :: s) = digitsVal base (n * base + (digitVal c).getD 0) s := rfl

variable {base : Nat}

theorem le_digitsVal (hb : 0 < base) (n : Nat) (s : Bytes) :
    n ≤ digitsVal base n s := by
  induction s generalizing n with
  | nil => exact Nat.le_refl n
  | cons c s ih =>
    calc n ≤ n * base := Nat.le_mul_of_pos_right n hb
      _ ≤ n * base + (digitVal c).getD 0 := Nat.le_add_right _ _
      _ ≤ _ := ih _

variable {s : Bytes}

theorem parseUintLoop_digits {maxVal n : Nat} (hb : 0 < base) (hs : IsDigits base s)
    (h : digitsVal base n s ≤ maxVal) :
    parseUintLoop base maxVal n s = .ok (digitsVal base n s) := by
  induction s generalizing n with
  | nil => rfl
  | cons c s ih =>
    obtain ⟨d, hd, hlt⟩ := hs c mem_cons_self
    rw [digitsVal_cons, hd] at h ⊢
    have hle : n * base + d ≤ maxVal := Nat.le_trans (le_digitsVal hb _ s) h
    rw [parseUintLoop, hd]
    simp only [Nat.not_le_of_lt hlt, Nat.not_lt_of_le hle]
    exact ih (fun x hx => hs x (mem_cons_of_mem c hx)) h

theorem digitsVal_lt (n : Nat) (hs : IsDigits base s) :
    digitsVal base n s < (n + 1) * base ^ s.length := by
  induction s generalizing n with
  | nil => simp [digitsVal]
  | cons c s ih =>
    obtain ⟨d, hd, hlt⟩ := hs c mem_cons_self
    have hle : n * base + d + 1 ≤ (n + 1) * base := by
      rw [Nat.add_mul]
      omega
    rw [digitsVal_cons, hd]
    calc digitsVal base (n * base + d) s
        < (n * base + d + 1) * base ^ s.length := ih _ fun x hx => hs x (mem_cons_of_mem c hx)
      _ ≤ (n + 1) * base * base ^ s.length := Nat.mul_le_mul_right _ hle
      _ = (n + 1) * base ^ (c :: s).length := by
        rw [length_cons, Nat.pow_succ, Nat.mul_assoc, Nat.mul_comm base]

theorem parseUintLoop_ok {maxVal n m : Nat} (h : parseUintLoop base maxVal n s = .ok m) :
    m = digitsVal base n s := by
  induction s generalizing n with
  | nil =>
    cases h
    rfl
  | cons c s ih =>
    rw [parseUintLoop] at h
    split at h
    · cases h
    · next d hd =>
      split at h
      · cases h
      split at h
      · cases h
      rw [digitsVal_cons, hd]
      exact ih h

theorem digitVal_ne_sign {c : UInt8} {d : Nat} (h : digitVal c = some d) :
    (c == 43) = false ∧ (c == 45) = false := by
  constructor <;> · rw [beq_eq_false_iff_ne]; rintro rfl; cases h

theorem parseInt_digits {bitSize : Nat} (hb : 0 < base) (hne : s ≠ []) (hs : IsDigits base s)
    (hsz : 0 < bitSize) (h : digitsVal base 0 s < 2 ^ (bitSize - 1)) :
    parseInt s base bitSize = .ok (digitsVal base 0 s) := by
  cases s with
  | nil => exact absurd rfl hne
  | cons c cs =>
    obtain ⟨d, hd, -⟩ := hs c mem_cons_self
    obtain ⟨hplus, hminus⟩ := digitVal_ne_sign hd
    have hpow : 2 ^ (bitSize - 1) ≤ 2 ^ bitSize - 1 := by
      obtain ⟨m, rfl⟩ : ∃ m, bitSize = m + 1 := ⟨bitSize - 1, by omega⟩
      rw [Nat.add_sub_cancel]
      omega
    have hu : parseUint (c :: cs) base bitSize = .ok (digitsVal base 0 (c :: cs)) := by
      exact parseUintLoop_digits hb hs (by omega)
    simp only [parseInt, hplus, hminus, Bool.or_self, Bool.false_eq_true, ↓reduceIte, hu,
      Bool.not_false, Bool.true_and, Bool.false_and, decide_eq_true_eq, Nat.not_le_of_lt h]

theorem parseInt_ok_of_digits {bitSize : Nat} {l : Int} (hs : IsDigits base s)
    (h : parseInt s base bitSize = .ok l) : l = digitsVal base 0 s := by
  cases s with
  | nil => cases h
  | cons c cs =>
    obtain ⟨d, hd, -⟩ := hs c mem_cons_self
    obtain ⟨hplus, hminus⟩ := digitVal_ne_sign hd
    simp only [parseInt, hplus, hminus, Bool.or_self, Bool.false_eq_true, ↓reduceIte] at h
    split at h
    · cases h
    · next un hun =>
      have hval := parseUintLoop_ok hun
      split at h
      · cases h
      split at h
      · next hneg => simp at hneg
      · cases h
        rw [hval]

theorem parseInt_error_of_digits {bitSize : Nat} (hs : IsDigits base s)
    (h : 2 ^ (bitSize - 1) ≤ digitsVal base 0 s) : ∃ e, parseInt s base bitSize = .error e := by
  cases s with
  | nil => exact ⟨.badSyntax, rfl⟩
  | cons c cs =>
    obtain ⟨d, hd, -⟩ := hs c mem_cons_self
    obtain ⟨hplus, hminus⟩ := digitVal_ne_sign hd
    simp only [parseInt, hplus, hminus, Bool.or_self, Bool.false_eq_true, ↓reduceIte]
    split
    · next e _ => exact ⟨e, rfl⟩
    · next un hun =>
      rw [← parseUintLoop_ok hun] at h
      exact ⟨.range, if_pos (by simpa using h)⟩

end Nbio.Go
