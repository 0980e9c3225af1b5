import Mathlib.Data.List.Basic

/-!
# Logs

A log grows at its end.  `Justified P log` says that every entry meets `P` with the entries in front
of it, so that an invariant of this kind is carried on by looking at the new entry alone.
-/

namespace Nbio.Lib

variable {α : Type*} {P : List α → α → Prop} {log : List α} {x : α}

def Justified (P : List α → α → Prop) (log : List α) : Prop :=
  ∀ pre x post, log = pre ++ x :: post → P pre x

theorem Justified.nil : Justified P [] := by
  intro pre x post hsplit
  simp at hsplit

theorem Justified.snoc (h : Justified P log) (hx : P log x) : Justified P (log ++ [x]) := by
  intro pre y post hsplit
  rcases List.eq_nil_or_concat post with rfl | ⟨post, last, rfl⟩
  · obtain ⟨rfl, hlast⟩ := List.append_inj' hsplit rfl
    cases hlast
    exact hx
  · have hsplit' : log ++ [x] = (pre ++ y :: post) ++ [last] := by simpa using hsplit
    exact h pre y post (List.append_inj' hsplit' rfl).1

theorem Justified.of_mem (h : Justified P log) (hx : x ∈ log) : ∃ pre, pre <+: log ∧ P pre x := by
  obtain ⟨pre, post, rfl⟩ := List.append_of_mem hx
  exact ⟨pre, List.prefix_append pre _, h pre x post rfl⟩

end Nbio.Lib
