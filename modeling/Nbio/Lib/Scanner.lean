import Mathlib.Data.List.Basic

/-!
# Resumable scanners

A scanner looks at the input it can see and either needs more of it, stops with an error, or
consumes at least one symbol and moves to a new configuration.  Its verdict is *stable* in the
configurations that are valid, which is an invariant of its steps: once it has decided, more input
behind the part it saw changes nothing.  Stability is all that is needed for a scanner to be fed in
segments: `feed_append` says that feeding `xs ++ ys` is feeding `xs` and then `ys`, and
`foldlM_feed` that any way of cutting the input into segments gives the result of the uncut input.
-/

namespace Nbio.Lib

open List

/-- What a scanner decides about the input it can see.  `step n k` consumes the first
`n + 1` symbols, so that every step makes progress. -/
inductive Verdict (κ ε : Type) where
  | need
  | stop (e : ε)
  | step (n : Nat) (k : κ)

/-- A scanner over symbols `α` with configurations `κ` and errors `ε`. -/
structure Scanner (α κ ε : Type) where
  next : κ → List α → Verdict κ ε
  Valid : κ → Prop
  valid : ∀ {k xs n k'}, Valid k → next k xs = .step n k' → Valid k'
  /-- A step consumes symbols it has seen. -/
  within : ∀ {k xs n k'}, next k xs = .step n k' → n < xs.length
  /-- A decision does not depend on input behind the part that led to it. -/
  stable : ∀ {k xs} ys, Valid k → next k xs ≠ .need → next k (xs ++ ys) = next k xs

namespace Scanner

variable {α κ ε : Type} (S : Scanner α κ ε)

/-- Step as long as the scanner can; the result is the configuration reached and the
input it has not consumed. -/
def run (k : κ) (xs : List α) : Except ε (κ × List α) :=
  match xs with
  | [] => .ok (k, [])
  | x :: xs' =>
    match S.next k (x :: xs') with
    | .need => .ok (k, x :: xs')
    | .stop e => .error e
    | .step n k' => run k' (xs'.drop n)
termination_by xs.length
decreasing_by simp only [length_drop, length_cons]; omega

@[simp] theorem run_nil (k : κ) : S.run k [] = .ok (k, []) := by
  rw [run]

variable {xs : List α}

theorem run_need {k : κ} (h : S.next k xs = .need) :
    S.run k xs = .ok (k, xs) := by
  cases xs with
  | nil => exact S.run_nil k
  | cons x xs => rw [run, h]

theorem run_stop {k : κ} {e : ε} (hne : xs ≠ []) (h : S.next k xs = .stop e) :
    S.run k xs = .error e := by
  cases xs with
  | nil => exact absurd rfl hne
  | cons x xs => rw [run, h]

variable {k' : κ}

theorem run_step {k : κ} {n : Nat} (h : S.next k xs = .step n k') :
    S.run k xs = S.run k' (xs.drop (n + 1)) := by
  cases xs with
  | nil => exact absurd (S.within h) (Nat.not_lt_zero n)
  | cons x xs => rw [run, h]; rfl

theorem run_append {k : κ} (hk : S.Valid k) (xs ys : List α) :
    S.run k (xs ++ ys) = S.run k xs >>= fun c => S.run c.1 (c.2 ++ ys) := by
  fun_induction S.run k xs with
  | case1 k => rfl
  | case2 k x xs' h => rfl
  | case3 k x xs' e h =>
    have hst : S.next k ((x :: xs') ++ ys) = .stop e := by
      rw [S.stable ys hk (by rw [h]; nofun), h]
    exact S.run_stop (by simp) hst
  | case4 k x xs' n k' h ih =>
    have hst : S.next k ((x :: xs') ++ ys) = .step n k' := by
      rw [S.stable ys hk (by rw [h]; nofun), h]
    have hn : n ≤ xs'.length := Nat.le_of_lt_succ (S.within h)
    rw [S.run_step hst, drop_append_of_le_length (by simpa using hn)]
    exact ih (S.valid hk h)

variable {left : List α}

theorem run_waits {k : κ} (h : S.run k xs = .ok (k', left)) :
    left = [] ∨ S.next k' left = .need := by
  fun_induction S.run k xs with
  | case1 k => cases h; exact .inl rfl
  | case2 k x xs' hn => cases h; exact .inr hn
  | case3 k x xs' e hn => cases h
  | case4 k x xs' n k'' hn ih => exact ih h

theorem run_settled {k : κ} (h : S.run k xs = .ok (k', left)) :
    S.run k' left = .ok (k', left) := by
  rcases S.run_waits h with rfl | hn
  · exact S.run_nil k'
  · exact S.run_need hn

theorem valid_run {k : κ} (hk : S.Valid k) (h : S.run k xs = .ok (k', left)) : S.Valid k' := by
  fun_induction S.run k xs with
  | case1 k => cases h; exact hk
  | case2 k x xs' hn => cases h; exact hk
  | case3 k x xs' e hn => cases h
  | case4 k x xs' n k'' hn ih => exact ih (S.valid hk hn) h

/-- Running over `xs` takes `k` to `k'`, whatever comes behind. -/
def Consumes (k : κ) (xs : List α) (k' : κ) : Prop :=
  ∀ ys, S.run k (xs ++ ys) = S.run k' ys

variable {S} in
theorem Consumes.append {k k₁ k₂ : κ} {ys : List α} (hx : S.Consumes k xs k₁)
    (hy : S.Consumes k₁ ys k₂) : S.Consumes k (xs ++ ys) k₂ := by
  intro zs
  rw [append_assoc, hx, hy]

variable {S} in
theorem Consumes.run {k : κ} (h : S.Consumes k xs k') : S.run k xs = .ok (k', []) := by
  have hrun := h []
  rwa [append_nil, run_nil] at hrun

variable {S} in
theorem Consumes.valid {k : κ} (h : S.Consumes k xs k') (hk : S.Valid k) : S.Valid k' :=
  S.valid_run hk h.run

theorem consumes_nil (k : κ) : S.Consumes k [] k := fun _ => rfl

theorem consumes_step {k : κ} {n : Nat} (hk : S.Valid k) (h : S.next k xs = .step n k')
    (hn : n + 1 = xs.length) : S.Consumes k xs k' := by
  intro ys
  have hst : S.next k (xs ++ ys) = .step n k' := by
    rw [S.stable ys hk (by rw [h]; nofun), h]
  rw [S.run_step hst, hn, drop_left]

def ConsumesEach : κ → List (List α) → κ → Prop
  | k, [], k' => k = k'
  | k, xs :: xss, k' => ∃ k₁, S.Consumes k xs k₁ ∧ ConsumesEach k₁ xss k'

variable {S} in
theorem ConsumesEach.append {k k₁ k₂ : κ} {xss yss : List (List α)} (hx : S.ConsumesEach k xss k₁)
    (hy : S.ConsumesEach k₁ yss k₂) : S.ConsumesEach k (xss ++ yss) k₂ := by
  induction xss generalizing k with
  | nil =>
    obtain rfl : k = k₁ := hx
    exact hy
  | cons xs xss ih =>
    obtain ⟨k', hfirst, hrest⟩ := hx
    exact ⟨k', hfirst, ih hrest⟩

variable {S} in
theorem ConsumesEach.flatten {k : κ} {xss : List (List α)} (h : S.ConsumesEach k xss k') :
    S.Consumes k xss.flatten k' := by
  induction xss generalizing k with
  | nil =>
    obtain rfl : k = k' := h
    exact S.consumes_nil k
  | cons xs xss ih =>
    obtain ⟨k₁, hfirst, hrest⟩ := h
    exact hfirst.append (ih hrest)

/-! ## Feeding in segments -/

/-- Feed one more segment to a configuration and its unconsumed input. -/
def feed (c : κ × List α) (seg : List α) : Except ε (κ × List α) :=
  S.run c.1 (c.2 ++ seg)

variable {c : κ × List α}

theorem feed_append (hc : S.Valid c.1) (xs ys : List α) :
    S.feed c (xs ++ ys) = S.feed c xs >>= fun c' => S.feed c' ys := by
  unfold feed
  rw [← append_assoc, S.run_append hc]

/-- A configuration whose unconsumed input is really waiting for more. -/
def Settled (c : κ × List α) : Prop := S.run c.1 c.2 = .ok c

theorem settled_nil (k : κ) : S.Settled (k, []) := S.run_nil k

theorem settled_feed {c' : κ × List α} {seg : List α} (h : S.feed c seg = .ok c') :
    S.Settled c' := by
  exact S.run_settled h

theorem valid_feed {c' : κ × List α} {seg : List α} (hc : S.Valid c.1) (h : S.feed c seg = .ok c') :
    S.Valid c'.1 := by
  exact S.valid_run hc h

theorem foldlM_feed (hv : S.Valid c.1) (hc : S.Settled c) (segs : List (List α)) :
    segs.foldlM S.feed c = S.feed c segs.flatten := by
  induction segs generalizing c with
  | nil =>
    have h : S.feed c [] = .ok c := by rw [feed, append_nil]; exact hc
    exact h.symm
  | cons seg segs ih =>
    rw [foldlM_cons, flatten_cons, S.feed_append hv]
    cases h : S.feed c seg with
    | error e => rfl
    | ok c' => exact ih (S.valid_feed hv h) (S.settled_feed h)

/-! ## Induction over a run -/

/-- An invariant of one step, on the configuration and the input still to be read, is an
invariant of every run. -/
theorem run_inv {P : κ → List α → Prop}
    (hstep : ∀ {k xs n k'}, P k xs → S.next k xs = .step n k' → P k' (xs.drop (n + 1))) {k : κ}
    (hk : P k xs) (h : S.run k xs = .ok (k', left)) :
    P k' left := by
  fun_induction S.run k xs with
  | case1 k => cases h; exact hk
  | case2 k x xs' hn => cases h; exact hk
  | case3 k x xs' e hn => cases h
  | case4 k x xs' n k'' hn ih => exact ih (hstep hk hn) h

theorem run_suffix {k : κ} (h : S.run k xs = .ok (k', left)) :
    left <:+ xs :=
  S.run_inv (P := fun _ ys => ys <:+ xs) (fun hs _ => (drop_suffix _ _).trans hs)
    suffix_rfl h

/-- What every verdict to stop guarantees, under an invariant of one step, the error of a
run guarantees. -/
theorem run_error {P : κ → List α → Prop} {Q : ε → Prop}
    (hstep : ∀ {k xs n k'}, P k xs → S.next k xs = .step n k' → P k' (xs.drop (n + 1)))
    (hstop : ∀ {k xs e}, P k xs → S.next k xs = .stop e → Q e) {k : κ} {e : ε} (hk : P k xs)
    (h : S.run k xs = .error e) : Q e := by
  fun_induction S.run k xs with
  | case1 k => cases h
  | case2 k x xs' hn => cases h
  | case3 k x xs' e hn => cases h; exact hstop hk hn
  | case4 k x xs' n k'' hn ih => exact ih (hstep hk hn) h

end Scanner

/-! ## Runs of two scanners -/

section Rel

variable {α κ κ' ε ε' : Type} {R : κ → κ' → Prop} {E : ε → ε' → Prop}

/-- Verdicts that agree up to relations on configurations and errors. -/
inductive VerdictRel (R : κ → κ' → Prop) (E : ε → ε' → Prop) :
    Verdict κ ε → Verdict κ' ε' → Prop where
  | need : VerdictRel R E .need .need
  | stop {e : ε} {e' : ε'} (h : E e e') : VerdictRel R E (.stop e) (.stop e')
  | step {n : Nat} {k : κ} {k' : κ'} (h : R k k') : VerdictRel R E (.step n k) (.step n k')

/-- Outcomes of a run that agree up to relations on configurations and errors; the
unconsumed input is the same. -/
inductive OutcomeRel (R : κ → κ' → Prop) (E : ε → ε' → Prop) :
    Except ε (κ × List α) → Except ε' (κ' × List α) → Prop where
  | ok {k : κ} {k' : κ'} {left : List α} (h : R k k') :
      OutcomeRel R E (.ok (k, left)) (.ok (k', left))
  | error {e : ε} {e' : ε'} (h : E e e') : OutcomeRel R E (.error e) (.error e')

/-- Configurations, of one scanner or of two, that no single step tells apart are told
apart by no run. -/
theorem Scanner.run_rel {S : Scanner α κ ε} {T : Scanner α κ' ε'}
    (hnext : ∀ {k l} xs, R k l → VerdictRel R E (S.next k xs) (T.next l xs))
    {k : κ} {l : κ'} (xs : List α) (h : R k l) : OutcomeRel R E (S.run k xs) (T.run l xs) := by
  fun_induction S.run k xs generalizing l with
  | case1 k => rw [T.run_nil]; exact .ok h
  | case2 k x xs' hn =>
    have hv := hnext (x :: xs') h
    rw [hn] at hv
    cases hl : T.next l (x :: xs') with
    | need => rw [T.run_need hl]; exact .ok h
    | stop e => rw [hl] at hv; cases hv
    | step n k' => rw [hl] at hv; cases hv
  | case3 k x xs' e hn =>
    have hv := hnext (x :: xs') h
    rw [hn] at hv
    cases hl : T.next l (x :: xs') with
    | need => rw [hl] at hv; cases hv
    | stop e' =>
      rw [hl] at hv
      cases hv with
      | stop he => rw [T.run_stop (cons_ne_nil x xs') hl]; exact .error he
    | step n k' => rw [hl] at hv; cases hv
  | case4 k x xs' n k' hn ih =>
    have hv := hnext (x :: xs') h
    rw [hn] at hv
    cases hl : T.next l (x :: xs') with
    | need => rw [hl] at hv; cases hv
    | stop e' => rw [hl] at hv; cases hv
    | step m l' =>
      rw [hl] at hv
      cases hv with
      | step hr => rw [T.run_step hl]; exact ih hr

end Rel

end Nbio.Lib
