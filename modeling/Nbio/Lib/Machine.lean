import Mathlib.Algebra.Order.BigOperators.Group.List
import Mathlib.Algebra.Order.Ring.Int
import Mathlib.Algebra.Order.Ring.Nat

/-!
# Machines whose steps may be refused

A machine is a partial step function on states and events.  `Reaches` is reachability by steps
that meet a guard, and `Reaches.invariant` the rule that carries a property over every such
run.  A state often has a list of processes of one kind; `total` adds up what each of them
contributes to a quantity of the whole state.
-/

namespace Nbio.Lib

open List

variable {σ ε : Type*}

/-- `t` is reached from `s` by steps that meet the guard. -/
inductive Reaches (step : σ → ε → Option σ) (guard : σ → ε → Prop) (s : σ) : σ → Prop where
  | refl : Reaches step guard s s
  | next {t u : σ} {e : ε} (h : Reaches step guard s t) (hguard : guard t e)
    (hstep : step t e = some u) : Reaches step guard s u

variable {step : σ → ε → Option σ} {guard : σ → ε → Prop} {s t : σ}

/-- What holds at first and is kept by every step that meets the guard holds all along. -/
theorem Reaches.invariant {P : σ → Prop} (h : Reaches step guard s t) (h₀ : P s)
    (hkeep : ∀ t e u, P t → guard t e → step t e = some u → P u) : P t := by
  induction h with
  | refl => exact h₀
  | next _ hguard hstep ih => exact hkeep _ _ _ ih hguard hstep

theorem Reaches.trans {u : σ} (h : Reaches step guard s t) (h' : Reaches step guard t u) :
    Reaches step guard s u := by
  induction h' with
  | refl => exact h
  | next _ hguard hstep ih => exact ih.next hguard hstep

theorem Reaches.mono {guard' : σ → ε → Prop} (h : Reaches step guard s t)
    (hguard : ∀ s e, guard s e → guard' s e) : Reaches step guard' s t := by
  induction h with
  | refl => exact .refl
  | next _ he hstep ih => exact ih.next (hguard _ _ he) hstep

/-- A step that is refused where it does not meet the guard. -/
def guarded (step : σ → ε → Option σ) (guard : σ → ε → Bool) (s : σ) (e : ε) : Option σ :=
  if guard s e then step s e else none

theorem Reaches.of_foldlM {guard : σ → ε → Bool} {es : List ε}
    (h : es.foldlM (guarded step guard) s = some t) :
    Reaches step (fun s e => guard s e = true) s t := by
  suffices hgen : ∀ r, Reaches step (fun s e => guard s e = true) s r →
      es.foldlM (guarded step guard) r = some t → Reaches step (fun s e => guard s e = true) s t
    from hgen s .refl h
  clear h
  intro r hr h
  induction es generalizing r with
  | nil =>
    cases h
    exact hr
  | cons e es ih =>
    rw [foldlM_cons] at h
    cases he : guarded step guard r e with
    | none => rw [he] at h; cases h
    | some u =>
      rw [he] at h
      unfold guarded at he
      split at he
      · next hguard => exact ih u (hr.next hguard he) h
      · cases he

theorem ends_of_any {o : Option σ} {p : σ → Prop} [DecidablePred p]
    (h : (o.any fun s => decide (p s)) = true) : ∃ s, o = some s ∧ p s := by
  cases o with
  | none => cases h
  | some s => exact ⟨s, rfl, of_decide_eq_true h⟩

/-! ## Processes -/

section Processes

variable {α : Type*} {n : Nat} {a : α}

/-- What the processes of a list contribute together. -/
def total (g : α → Nat) (l : List α) : Nat := (l.map g).sum

@[simp] theorem total_nil (g : α → Nat) : total g [] = 0 := rfl

@[simp] theorem total_append (g : α → Nat) (l : List α) (a : α) :
    total g (l ++ [a]) = total g l + g a := by
  simp [total]

theorem total_set (g : α → Nat) {l : List α} (h : l[n]? = some a) (b : α) :
    total g (l.set n b) + g a = total g l + g b := by
  induction l generalizing n with
  | nil => cases h
  | cons c l ih =>
    cases n with
    | zero =>
      obtain rfl : c = a := Option.some.inj h
      simp only [total, set_cons_zero, map_cons, sum_cons]
      omega
    | succ n =>
      have hrest := ih h
      simp only [total, set_cons_succ, map_cons, sum_cons] at hrest ⊢
      omega

theorem total_eraseIdx (g : α → Nat) {l : List α} (h : l[n]? = some a) :
    total g (l.eraseIdx n) + g a = total g l := by
  induction l generalizing n with
  | nil => cases h
  | cons c l ih =>
    cases n with
    | zero =>
      obtain rfl : c = a := Option.some.inj h
      simp only [total, eraseIdx_cons_zero, map_cons, sum_cons]
      omega
    | succ n =>
      have hrest := ih h
      simp only [total, eraseIdx_cons_succ, map_cons, sum_cons] at hrest ⊢
      omega

theorem getElem?_set_of_some {l : List α} (h : l[n]? = some a) (b : α) :
    (l.set n b)[n]? = some b :=
  getElem?_set_self (List.getElem?_eq_some_iff.1 h).1

theorem getElem?_append_of_some {l : List α} (h : l[n]? = some a) (b : α) :
    (l ++ [b])[n]? = some a := by
  rw [getElem?_append_left (List.getElem?_eq_some_iff.1 h).1]
  exact h

theorem of_getElem?_set {l : List α} {b : α} {k : Nat} (h : (l.set n b)[k]? = some a) :
    (k = n ∧ a = b) ∨ (k ≠ n ∧ l[k]? = some a) := by
  rw [getElem?_set] at h
  split at h
  · next hk =>
    split at h
    · exact .inl ⟨hk.symm, (Option.some.inj h).symm⟩
    · cases h
  · next hk => exact .inr ⟨fun e => hk e.symm, h⟩

theorem of_getElem?_append {l : List α} {b : α} {k : Nat} (h : (l ++ [b])[k]? = some a) :
    (k = l.length ∧ a = b) ∨ l[k]? = some a := by
  rw [getElem?_append] at h
  split at h
  · exact .inr h
  · next hk =>
    rw [getElem?_singleton] at h
    split at h
    · exact .inl ⟨by omega, (Option.some.inj h).symm⟩
    · cases h

theorem total_le_total {g h : α → Nat} {l : List α} (hle : ∀ a ∈ l, g a ≤ h a) :
    total g l ≤ total h l :=
  sum_le_sum hle

theorem total_eq_zero {g : α → Nat} {l : List α} (h : ∀ a ∈ l, g a = 0) : total g l = 0 := by
  refine sum_eq_zero fun n hn => ?_
  obtain ⟨a, ha, rfl⟩ := mem_map.1 hn
  exact h a ha

theorem total_le_length {g : α → Nat} {l : List α} (h : ∀ a ∈ l, g a ≤ 1) :
    total g l ≤ l.length := by
  have hle : total g l ≤ total (fun _ => 1) l := total_le_total h
  simpa [total] using hle

theorem le_total_of_mem (g : α → Nat) {l : List α} (h : a ∈ l) : g a ≤ total g l := by
  obtain ⟨n, hn⟩ := mem_iff_getElem?.1 h
  have herase := total_eraseIdx g hn
  omega

end Processes

end Nbio.Lib
