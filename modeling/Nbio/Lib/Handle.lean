import Mathlib.Data.List.Induction
import Mathlib.Logic.Function.Basic

/-!
# Buffers that are held by handles

A program obtains buffers from a pool, uses them and gives them back.  `Sound` says of a trace of
such operations that nothing is done to a buffer once it is freed; `Holding` is what a program knows
when it holds some buffers, and its rules say what each operation needs and leaves.

Growing a buffer may move it: the pool then gives out another buffer and frees the old one.  A
handle stands for a buffer wherever it has been moved to.  `moved` replays a trace over handles on
a pool that moves some of the buffers that grow, and `moved_sound_iff` says that this makes no
difference to a program which uses each buffer through its handle.
-/

namespace Nbio.Lib

open List

inductive BufOp where
  | new (b : Nat)
  | use (b : Nat)
  | grow (b : Nat)
  | free (b : Nat)
deriving DecidableEq, Repr

def BufOp.needs : BufOp → Option Nat
  | .new _ => none
  | .use b | .grow b | .free b => some b

/-- Nothing is done to a buffer that has been freed; in particular it is not freed again. -/
def Sound (ops : List BufOp) : Prop :=
  ∀ before op after b, ops = before ++ op :: after → op.needs = some b → .free b ∉ before

/-- A buffer is obtained once, and before anything else is done to it. -/
def Fresh (ops : List BufOp) : Prop :=
  ∀ before op after, ops = before ++ op :: after →
    (∀ b, op = .new b → .new b ∉ before) ∧ ∀ b, op.needs = some b → .new b ∈ before

variable {ops more : List BufOp} {op : BufOp} {b : Nat}

theorem eq_append_cons {α : Type*} {l before after : List α} {x a : α}
    (h : l ++ [x] = before ++ a :: after) :
    (before = l ∧ a = x ∧ after = []) ∨ ∃ rest, l = before ++ a :: rest := by
  rcases eq_nil_or_concat after with rfl | ⟨rest, y, rfl⟩
  · obtain ⟨rfl, heq⟩ := append_inj' h rfl
    exact .inl ⟨rfl, (singleton_inj.1 heq).symm, rfl⟩
  · right
    rw [concat_eq_append, ← cons_append, ← append_assoc] at h
    exact ⟨rest, (append_inj' h rfl).1⟩

theorem sound_nil : Sound [] := by
  intro before op after b h
  cases before <;> cases h

theorem Sound.of_append (h : Sound (ops ++ more)) : Sound ops := by
  intro before op after b heq
  refine h before op (after ++ more) b ?_
  rw [heq, append_assoc, cons_append]

theorem sound_append_iff :
    Sound (ops ++ [op]) ↔ Sound ops ∧ ∀ b, op.needs = some b → .free b ∉ ops := by
  constructor
  · intro h
    exact ⟨h.of_append, fun b hb => h ops op [] b rfl hb⟩
  · rintro ⟨hsound, hop⟩ before op' after b heq hb
    rcases eq_append_cons heq with ⟨rfl, rfl, -⟩ | ⟨rest, hops⟩
    · exact hop b hb
    · exact hsound before op' rest b hops hb

theorem fresh_nil : Fresh [] := by
  intro before op after h
  cases before <;> cases h

theorem fresh_append_iff :
    Fresh (ops ++ [op]) ↔ Fresh ops ∧ (∀ b, op = .new b → .new b ∉ ops) ∧
      ∀ b, op.needs = some b → .new b ∈ ops := by
  constructor
  · intro h
    refine ⟨?_, h ops op [] rfl⟩
    intro before op' after heq
    refine h before op' (after ++ [op]) ?_
    rw [heq, append_assoc, cons_append]
  · rintro ⟨hfresh, hop⟩ before op' after heq
    rcases eq_append_cons heq with ⟨rfl, rfl, -⟩ | ⟨rest, hops⟩
    · exact hop
    · exact hfresh before op' rest hops

theorem Fresh.new_of_free (h : Fresh ops) (hfree : .free b ∈ ops) : .new b ∈ ops := by
  obtain ⟨before, after, rfl⟩ := append_of_mem hfree
  exact mem_append_left _ ((h before _ after rfl).2 b rfl)

/-! ## Holding buffers -/

/-- The program holds the buffers `bs`; the buffers from `next` on have not been obtained. -/
structure Holding (ops : List BufOp) (next : Nat) (bs : List Nat) : Prop where
  sound : Sound ops
  fresh : Fresh ops
  lt : ∀ b, .new b ∈ ops → b < next
  known : ∀ b ∈ bs, .new b ∈ ops
  live : ∀ b ∈ bs, .free b ∉ ops
  nodup : bs.Nodup

namespace Holding

variable {next : Nat} {bs bs' : List Nat}

theorem nil : Holding [] next [] :=
  ⟨sound_nil, fresh_nil, nofun, nofun, nofun, nodup_nil⟩

section

variable (h : Holding ops next bs)

include h

theorem weaken (hsub : bs' ⊆ bs) (hnodup : bs'.Nodup) :
    Holding ops next bs' :=
  ⟨h.sound, h.fresh, h.lt, fun b hb => h.known b (hsub hb), fun b hb => h.live b (hsub hb), hnodup⟩

theorem sublist (hsub : bs'.Sublist bs) : Holding ops next bs' :=
  h.weaken hsub.subset (h.nodup.sublist hsub)

theorem new : Holding (ops ++ [.new next]) (next + 1) (next :: bs) := by
  have hnew : .new next ∉ ops := fun hmem => Nat.lt_irrefl _ (h.lt next hmem)
  refine ⟨sound_append_iff.2 ⟨h.sound, nofun⟩, fresh_append_iff.2 ⟨h.fresh, ?_, nofun⟩, ?_,
    ?_, ?_, ?_⟩
  · intro b heq
    cases heq
    exact hnew
  · intro b hb
    rcases mem_append.1 hb with hb | hb
    · exact Nat.lt_succ_of_lt (h.lt b hb)
    · obtain rfl : b = next := by simpa using hb
      exact Nat.lt_succ_self _
  · intro b hb
    rcases mem_cons.1 hb with rfl | hb
    · exact mem_append_right _ (mem_singleton_self _)
    · exact mem_append_left _ (h.known b hb)
  · intro b hb hfree
    have hold : .free b ∈ ops := by simpa using hfree
    rcases mem_cons.1 hb with rfl | hb
    · exact hnew (h.fresh.new_of_free hold)
    · exact h.live b hb hold
  · refine nodup_cons.2 ⟨fun hmem => hnew (h.known next hmem), h.nodup⟩

theorem touch (hb : b ∈ bs) (hop : op = .use b ∨ op = .grow b) :
    Holding (ops ++ [op]) next bs := by
  have hneeds : ∀ c, op.needs = some c → c = b := by
    rcases hop with rfl | rfl
    · intro c hc
      exact (Option.some.inj hc).symm
    · intro c hc
      exact (Option.some.inj hc).symm
  have hnew : ∀ c, .new c ∈ ops ++ [op] → .new c ∈ ops := by
    rcases hop with rfl | rfl <;> simp
  have hfree : ∀ c, .free c ∈ ops ++ [op] → .free c ∈ ops := by
    rcases hop with rfl | rfl <;> simp
  refine ⟨sound_append_iff.2 ⟨h.sound, ?_⟩, fresh_append_iff.2 ⟨h.fresh, ?_, ?_⟩,
    fun c hc => h.lt c (hnew c hc), fun c hc => mem_append_left _ (h.known c hc),
    fun c hc hmem => h.live c hc (hfree c hmem), h.nodup⟩
  · intro c hc
    rw [hneeds c hc]
    exact h.live b hb
  · rcases hop with rfl | rfl <;> nofun
  · intro c hc
    rw [hneeds c hc]
    exact h.known b hb

theorem use (hb : b ∈ bs) : Holding (ops ++ [.use b]) next bs :=
  h.touch hb (.inl rfl)

theorem grow (hb : b ∈ bs) : Holding (ops ++ [.grow b]) next bs :=
  h.touch hb (.inr rfl)

end

theorem free (h : Holding ops next (b :: bs)) : Holding (ops ++ [.free b]) next bs := by
  obtain ⟨hout, hnodup⟩ := nodup_cons.1 h.nodup
  refine ⟨sound_append_iff.2 ⟨h.sound, ?_⟩, fresh_append_iff.2 ⟨h.fresh, nofun, ?_⟩, ?_, ?_,
    ?_, hnodup⟩
  · intro c hc
    obtain rfl : b = c := Option.some.inj hc
    exact h.live b mem_cons_self
  · intro c hc
    obtain rfl : b = c := Option.some.inj hc
    exact h.known b mem_cons_self
  · intro c hc
    exact h.lt c (by simpa using hc)
  · intro c hc
    exact mem_append_left _ (h.known c (mem_cons_of_mem b hc))
  · intro c hc hfree
    rcases mem_append.1 hfree with hfree | hfree
    · exact h.live c (mem_cons_of_mem b hc) hfree
    · obtain rfl : c = b := by simpa using hfree
      exact hout hc

end Holding

theorem not_sound_of_freed (hfree : .free b ∈ ops) (hop : op.needs = some b) (after : List BufOp) :
    ¬ Sound (ops ++ op :: after) :=
  fun h => h ops op after b rfl hop hfree

/-! ## Buffers that move -/

/-- A pool that has moved buffers: what has been done to them, where each handle's buffer is, and
how often a buffer has been grown. -/
structure Moved where
  trace : List BufOp
  place : Nat → Nat
  next : Nat
  grown : Nat

/-- The next operation, where `moves` says which growing buffers are moved. -/
def Moved.step (moves : Nat → Bool) (m : Moved) : BufOp → Moved
  | .new b =>
    { m with
      trace := m.trace ++ [.new m.next], place := Function.update m.place b m.next
      next := m.next + 1 }
  | .use b => { m with trace := m.trace ++ [.use (m.place b)] }
  | .grow b =>
    if moves m.grown then
      { trace := m.trace ++ [.grow (m.place b)] ++ [.new m.next] ++ [.free (m.place b)]
        place := Function.update m.place b m.next, next := m.next + 1, grown := m.grown + 1 }
    else { m with trace := m.trace ++ [.grow (m.place b)], grown := m.grown + 1 }
  | .free b => { m with trace := m.trace ++ [.free (m.place b)] }

def moved (moves : Nat → Bool) (ops : List BufOp) : Moved :=
  ops.foldl (Moved.step moves) { trace := [], place := id, next := 0, grown := 0 }

variable {moves : Nat → Bool} {m : Moved}

theorem moved_append (ops : List BufOp) (op : BufOp) :
    moved moves (ops ++ [op]) = (moved moves ops).step moves op := by
  rw [moved, foldl_append]
  rfl

/-- How the pool stands to the trace over handles: the handles have different buffers, and a
handle's buffer is freed when the handle is. -/
structure Moved.Tracks (m : Moved) (ops : List BufOp) : Prop where
  sound : Sound m.trace
  place_lt : ∀ b, .new b ∈ ops → m.place b < m.next
  freed_lt : ∀ p, .free p ∈ m.trace → p < m.next
  inj : ∀ b c, .new b ∈ ops → .new c ∈ ops → m.place b = m.place c → b = c
  freed_iff : ∀ b, .new b ∈ ops → (.free (m.place b) ∈ m.trace ↔ .free b ∈ ops)

namespace Moved.Tracks

theorem new (h : m.Tracks ops) (hfresh : Fresh ops) (hnew : .new b ∉ ops) :
    (m.step moves (.new b)).Tracks (ops ++ [.new b]) := by
  have hold : ∀ c, .new c ∈ ops ++ [.new b] → c = b ∨ .new c ∈ ops ∧ c ≠ b := by
    intro c hc
    by_cases heq : c = b
    · exact .inl heq
    · exact .inr ⟨by simpa [heq] using hc, heq⟩
  have hnext : .free m.next ∉ m.trace := fun hmem => Nat.lt_irrefl _ (h.freed_lt _ hmem)
  refine ⟨sound_append_iff.2 ⟨h.sound, nofun⟩, ?_, ?_, ?_, ?_⟩
  · intro c hc
    rcases hold c hc with rfl | ⟨hc, hne⟩
    · simp [step]
    · have := h.place_lt c hc
      simp only [step, Function.update_of_ne hne]
      omega
  · intro p hp
    have hp : .free p ∈ m.trace := by simpa [step] using hp
    exact Nat.lt_succ_of_lt (h.freed_lt p hp)
  · intro c d hc hd heq
    rcases hold c hc with hcb | ⟨hco, hcb⟩
    · rcases hold d hd with hdb | ⟨hdo, hdb⟩
      · exact hcb.trans hdb.symm
      · have := h.place_lt d hdo
        subst hcb
        simp only [step, Function.update_self, Function.update_of_ne hdb] at heq
        omega
    · have := h.place_lt c hco
      rcases hold d hd with hdb | ⟨hdo, hdb⟩
      · subst hdb
        simp only [step, Function.update_self, Function.update_of_ne hcb] at heq
        omega
      · simp only [step, Function.update_of_ne hcb, Function.update_of_ne hdb] at heq
        exact h.inj c d hco hdo heq
  · intro c hc
    rcases hold c hc with rfl | ⟨hc, hne⟩
    · have hfree : .free c ∉ ops := fun hmem => hnew (hfresh.new_of_free hmem)
      simp [step, hnext, hfree]
    · have := h.freed_iff c hc
      simp [step, Function.update_of_ne hne, this]

variable (h : m.Tracks ops) (hknown : .new b ∈ ops) (hlive : .free b ∉ ops)

include h hknown hlive

theorem touch {f : Nat → BufOp} (hf : f = .use ∨ f = .grow) {grown : Nat} :
    ({ m with trace := m.trace ++ [f (m.place b)], grown := grown } : Moved).Tracks
      (ops ++ [f b]) := by
  have hplace : .free (m.place b) ∉ m.trace := fun hmem => hlive ((h.freed_iff b hknown).1 hmem)
  have hnew : ∀ c, .new c ∈ ops ++ [f b] → .new c ∈ ops := by
    rcases hf with rfl | rfl <;> simp
  have hfree : ∀ c, .free c ∈ ops ++ [f b] ↔ .free c ∈ ops := by
    rcases hf with rfl | rfl <;> simp
  have htrace : ∀ p, .free p ∈ m.trace ++ [f (m.place b)] ↔ .free p ∈ m.trace := by
    rcases hf with rfl | rfl <;> simp
  refine ⟨sound_append_iff.2 ⟨h.sound, ?_⟩, fun c hc => h.place_lt c (hnew c hc),
    fun p hp => h.freed_lt p ((htrace p).1 hp),
    fun c d hc hd => h.inj c d (hnew c hc) (hnew d hd), ?_⟩
  · intro p hp
    obtain rfl : m.place b = p := by
      rcases hf with rfl | rfl
      · exact Option.some.inj hp
      · exact Option.some.inj hp
    exact hplace
  · intro c hc
    rw [htrace, hfree]
    exact h.freed_iff c (hnew c hc)

theorem free :
    (m.step moves (.free b)).Tracks (ops ++ [.free b]) := by
  have hplace : .free (m.place b) ∉ m.trace := fun hmem => hlive ((h.freed_iff b hknown).1 hmem)
  have hnew : ∀ c, .new c ∈ ops ++ [.free b] → .new c ∈ ops := by simp
  refine ⟨sound_append_iff.2 ⟨h.sound, ?_⟩, fun c hc => h.place_lt c (hnew c hc), ?_,
    fun c d hc hd => h.inj c d (hnew c hc) (hnew d hd), ?_⟩
  · intro p hp
    obtain rfl : m.place b = p := Option.some.inj hp
    exact hplace
  · intro p hp
    rcases mem_append.1 hp with hp | hp
    · exact h.freed_lt p hp
    · obtain rfl : p = m.place b := by simpa using hp
      exact h.place_lt b hknown
  · intro c hc
    have hc := hnew c hc
    have hold := h.freed_iff c hc
    by_cases heq : c = b
    · subst heq
      simp [step]
    · have hne : m.place c ≠ m.place b := fun hpl => heq (h.inj c b hc hknown hpl)
      simp [step, heq, hne, hold]

theorem move (hmoves : moves m.grown = true) :
    (m.step moves (.grow b)).Tracks (ops ++ [.grow b]) := by
  have hplace : .free (m.place b) ∉ m.trace := fun hmem => hlive ((h.freed_iff b hknown).1 hmem)
  have hlt := h.place_lt b hknown
  have hnext : .free m.next ∉ m.trace := fun hmem => Nat.lt_irrefl _ (h.freed_lt _ hmem)
  have hnew : ∀ c, .new c ∈ ops ++ [.grow b] → .new c ∈ ops := by simp
  have hfree : ∀ c, .free c ∈ ops ++ [.grow b] ↔ .free c ∈ ops := by simp
  have hstep : m.step moves (.grow b) =
      { trace := m.trace ++ [.grow (m.place b)] ++ [.new m.next] ++ [.free (m.place b)]
        place := Function.update m.place b m.next, next := m.next + 1, grown := m.grown + 1 } :=
    if_pos hmoves
  have htrace : ∀ p, .free p ∈ m.trace ++ [.grow (m.place b)] ++ [.new m.next] ++
      [.free (m.place b)] ↔ .free p ∈ m.trace ∨ p = m.place b := by simp
  rw [hstep]
  refine ⟨?_, ?_, ?_, ?_, ?_⟩
  · refine sound_append_iff.2 ⟨sound_append_iff.2 ⟨sound_append_iff.2 ⟨h.sound, ?_⟩, nofun⟩, ?_⟩
    · intro p hp
      obtain rfl : m.place b = p := Option.some.inj hp
      exact hplace
    · intro p hp
      obtain rfl : m.place b = p := Option.some.inj hp
      simpa using hplace
  · intro c hc
    by_cases heq : c = b
    · subst heq
      simp
    · have := h.place_lt c (hnew c hc)
      simp only [Function.update_of_ne heq]
      omega
  · intro p hp
    rcases (htrace p).1 hp with hp | rfl
    · exact Nat.lt_succ_of_lt (h.freed_lt p hp)
    · exact Nat.lt_succ_of_lt hlt
  · intro c d hc hd heq
    have hcl := h.place_lt c (hnew c hc)
    have hdl := h.place_lt d (hnew d hd)
    by_cases hcb : c = b
    · by_cases hdb : d = b
      · exact hcb.trans hdb.symm
      · subst hcb
        simp only [Function.update_self, Function.update_of_ne hdb] at heq
        omega
    · by_cases hdb : d = b
      · subst hdb
        simp only [Function.update_self, Function.update_of_ne hcb] at heq
        omega
      · simp only [Function.update_of_ne hcb, Function.update_of_ne hdb] at heq
        exact h.inj c d (hnew c hc) (hnew d hd) heq
  · intro c hc
    have hc := hnew c hc
    dsimp only
    rw [htrace, hfree]
    by_cases heq : c = b
    · subst heq
      rw [Function.update_self]
      constructor
      · rintro (hmem | hmem)
        · exact absurd hmem hnext
        · omega
      · intro hmem
        exact absurd hmem hlive
    · have hne : m.place c ≠ m.place b := fun hpl => heq (h.inj c b hc hknown hpl)
      rw [Function.update_of_ne heq, or_iff_left hne]
      exact h.freed_iff c hc

end Moved.Tracks

theorem moved_tracks (moves : Nat → Bool) (hfresh : Fresh ops) (hsound : Sound ops) :
    (moved moves ops).Tracks ops := by
  induction ops using reverseRecOn with
  | nil => exact ⟨sound_nil, nofun, nofun, nofun, nofun⟩
  | append_singleton ops op ih =>
    rw [fresh_append_iff] at hfresh
    rw [sound_append_iff] at hsound
    obtain ⟨hfresh, hnew, hknown⟩ := hfresh
    obtain ⟨hsound, hlive⟩ := hsound
    have htracks := ih hfresh hsound
    rw [moved_append]
    cases op with
    | new b => exact htracks.new hfresh (hnew b rfl)
    | use b => exact htracks.touch (hknown b rfl) (hlive b rfl) (.inl rfl)
    | grow b =>
      cases hmoves : moves (moved moves ops).grown with
      | true => exact htracks.move (hknown b rfl) (hlive b rfl) hmoves
      | false =>
        have hstep : (moved moves ops).step moves (.grow b) = _ :=
          if_neg (by rw [hmoves]; exact Bool.false_ne_true)
        rw [hstep]
        exact htracks.touch (hknown b rfl) (hlive b rfl) (.inr rfl)
    | free b => exact htracks.free (hknown b rfl) (hlive b rfl)

theorem step_trace (m : Moved) (op : BufOp) :
    ∃ op' rest, (m.step moves op).trace = m.trace ++ op' :: rest ∧
      op'.needs = op.needs.map m.place := by
  cases op with
  | new b => exact ⟨_, [], rfl, rfl⟩
  | use b => exact ⟨_, [], rfl, rfl⟩
  | grow b =>
    dsimp only [Moved.step]
    split
    · refine ⟨.grow (m.place b), [.new m.next, .free (m.place b)], ?_, rfl⟩
      simp
    · exact ⟨_, [], rfl, rfl⟩
  | free b => exact ⟨_, [], rfl, rfl⟩

theorem moved_sound_iff (hfresh : Fresh ops) : Sound (moved moves ops).trace ↔ Sound ops := by
  constructor
  · intro h
    induction ops using reverseRecOn with
    | nil => exact sound_nil
    | append_singleton ops op ih =>
      rw [fresh_append_iff] at hfresh
      rw [moved_append] at h
      obtain ⟨op', rest, htrace, hneeds⟩ := step_trace (moved moves ops) op
      rw [htrace] at h
      have hsound := ih hfresh.1 h.of_append
      have htracks := moved_tracks moves hfresh.1 hsound
      refine sound_append_iff.2 ⟨hsound, ?_⟩
      intro b hb hfree
      rw [hb] at hneeds
      have hplace := (htracks.freed_iff b (hfresh.2.2 b hb)).2 hfree
      exact not_sound_of_freed hplace hneeds rest h
  · intro h
    exact (moved_tracks moves hfresh h).sound

theorem moved_trace_append (ops more : List BufOp) :
    ∃ rest, (moved moves (ops ++ more)).trace = (moved moves ops).trace ++ rest := by
  induction more using reverseRecOn with
  | nil => exact ⟨[], by simp⟩
  | append_singleton more op ih =>
    obtain ⟨rest, hrest⟩ := ih
    obtain ⟨op', rest', htrace, -⟩ := step_trace (moved moves (ops ++ more)) op
    rw [← append_assoc, moved_append, htrace, hrest]
    exact ⟨rest ++ op' :: rest', append_assoc ..⟩

theorem moved_not_sound (hfresh : Fresh ops) (hfree : .free b ∈ ops) (hop : op.needs = some b)
    (after : List BufOp) : ¬ Sound (moved moves (ops ++ op :: after)).trace := by
  have hnext : Fresh (ops ++ [op]) := by
    refine fresh_append_iff.2 ⟨hfresh, ?_, ?_⟩
    · intro c hc
      rw [hc] at hop
      cases hop
    · intro c hc
      obtain rfl : b = c := Option.some.inj (hop.symm.trans hc)
      exact hfresh.new_of_free hfree
  intro hsound
  obtain ⟨rest, hrest⟩ := moved_trace_append (ops ++ [op]) after
  rw [append_assoc, singleton_append] at hrest
  rw [hrest] at hsound
  exact not_sound_of_freed hfree hop [] ((moved_sound_iff hnext).1 hsound.of_append)

end Nbio.Lib
