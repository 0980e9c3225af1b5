import Nbio.Taskpool.Pool

/-!
# Stopping the task pool

`Stop` adds `maxConcurrent` to the counter, so that no `acquire` succeeds any more, and closes
`chClose`, on which a `Go` that waits for room in the queue and the dispatcher give up.

The machine is that of the pool with these steps added.  Here the counter is an `int64` and wraps,
which matters because `Stop` adds an amount that the user chose.
-/

namespace Nbio.Taskpool

open Nbio.Lib List Option

variable {F : Type}

/-- The pool and what `Stop` changes.  `submitted` records the tasks of all calls of `Go`, `refused`
those that `Go` gave up and `dropped` those that the dispatcher gave up. -/
structure Stoppable (F : Type) where
  pool : State F
  /-- `Stop` has added to the counter. -/
  bumped : Bool
  chClose : Bool
  exited : Bool
  submitted : List F
  refused : List F
  dropped : List F
deriving DecidableEq, Repr

def Stoppable.init : Stoppable F where
  pool := Taskpool.init
  bumped := false
  chClose := false
  exited := false
  submitted := []
  refused := []
  dropped := []

/-! ## Steps -/

/-- The `int64` that is congruent to a number. -/
def int64 (n : Int) : Int := (n + 2 ^ 63) % 2 ^ 64 - 2 ^ 63

/-- The addition of `acquire`: whether it succeeds, and the counter behind it. -/
def acquire (tp : TaskPool) (s : State F) : Bool × State F :=
  let concurrent := int64 (s.concurrent + 1)
  (concurrent ≤ tp.maxConcurrent, { s with concurrent := concurrent })

def Event.adds : Event F → Bool
  | .go _ | .dispatchFork => true
  | _ => false

def Event.dispatches : Event F → Bool
  | .dispatch _ | .dispatchFork | .dispatchUndo | .dispatchWake => true
  | _ => false

def poolStep (tp : TaskPool) (s : State F) : Event F → Option (State F)
  | .go f =>
    let (ok, s) := acquire tp s
    if ok then
      some { s with workers := s.workers ++ [Worker.starting f], accepted := s.accepted ++ [f] }
    else some { s with callers := s.callers ++ [Caller.undoing f] }
  | .dispatchFork =>
    match s.dispatcher with
    | .forking f =>
      let (ok, s) := acquire tp s
      if ok then
        some { s with workers := s.workers ++ [Worker.starting f], dispatcher := .receiving }
      else some { s with dispatcher := .undoing f }
    | _ => none
  | e => (step tp s e).map fun s => { s with concurrent := int64 s.concurrent }

def Event.submits : Event F → List F
  | .go f => [f]
  | _ => []

inductive StopEvent (F : Type) where
  | pool (e : Event F)
  /-- The first call of `Stop`, up to its addition. -/
  | stop
  | close
  /-- Caller `n` gives its task up. -/
  | abandon (n : Nat)
  /-- The dispatcher returns, at one of its two selects. -/
  | exit

def stopStep (tp : TaskPool) (s : Stoppable F) : StopEvent F → Option (Stoppable F)
  | .pool e =>
    if e.dispatches && s.exited then none
    else (poolStep tp s.pool e).map fun pool =>
      { s with pool := pool, submitted := s.submitted ++ e.submits }
  | .stop =>
    if s.bumped then none
    else
      let concurrent := int64 (s.pool.concurrent + tp.maxConcurrent)
      some { s with pool := { s.pool with concurrent := concurrent }, bumped := true }
  | .close => if s.bumped && !s.chClose then some { s with chClose := true } else none
  | .abandon n =>
    match s.pool.callers[n]?, s.chClose with
    | some (.pushing f), true =>
      some { s with
        pool := { s.pool with callers := s.pool.callers.eraseIdx n }
        refused := s.refused ++ [f] }
    | _, _ => none
  | .exit =>
    if s.chClose && !s.exited then
      match s.pool.dispatcher with
      | .receiving => some { s with exited := true }
      | .waiting f =>
        some { s with
          pool := { s.pool with dispatcher := .receiving }, exited := true
          dropped := s.dropped ++ [f] }
      | _ => none
    else none

def NoOverflow (tp : TaskPool) (s : Stoppable F) : StopEvent F → Prop
  | .pool e => e.adds = true → s.pool.concurrent + 1 < 2 ^ 63
  | .stop => s.pool.concurrent + tp.maxConcurrent < 2 ^ 63
  | _ => True

instance (tp : TaskPool) (s : Stoppable F) : DecidablePred (NoOverflow tp s)
  | .pool _ => inferInstanceAs (Decidable (_ → _))
  | .stop => inferInstanceAs (Decidable (_ < _))
  | .close | .abandon _ | .exit => inferInstanceAs (Decidable True)

theorem int64_of_lt {n : Int} (h₀ : 0 ≤ n) (h : n < 2 ^ 63) : int64 n = n := by
  unfold int64
  omega

variable {tp : TaskPool} {s u : State F} {e : Event F}

/-- Without an overflow a step is one of the pool whose counter is not bounded. -/
theorem poolStep_eq (h₀ : 0 ≤ s.concurrent) (hadd : e.adds = true → s.concurrent + 1 < 2 ^ 63)
    (hsmall : ∀ u, step tp s e = some u → int64 u.concurrent = u.concurrent) :
    poolStep tp s e = step tp s e := by
  have hacquire : e.adds = true → acquire tp s =
      (tp.hasSlot s, { s with concurrent := s.concurrent + 1 }) := by
    intro he
    have hlt := hadd he
    rw [acquire, int64_of_lt (by omega) hlt]
    rfl
  have hother : (step tp s e).map (fun s => { s with concurrent := int64 s.concurrent }) =
      step tp s e := by
    cases hstep : step tp s e with
    | none => rfl
    | some u => rw [Option.map_some, hsmall u hstep]
  cases e with
  | go f =>
    rw [poolStep, hacquire rfl, step]
    cases tp.hasSlot s <;> rfl
  | dispatchFork =>
    rw [poolStep, hacquire rfl, step]
    cases s.dispatcher with
    | forking f => cases tp.hasSlot s <;> rfl
    | receiving => rfl
    | undoing f => rfl
    | waiting f => rfl
  | undo n => exact hother
  | push n => exact hother
  | start n => exact hother
  | finish n => exact hother
  | take n sender => exact hother
  | leave n => exact hother
  | release n => exact hother
  | post n => exact hother
  | dispatch sender => exact hother
  | dispatchUndo => exact hother
  | dispatchWake => exact hother

theorem bump_nonneg (tp : TaskPool) (b : Bool) : 0 ≤ if b then tp.maxConcurrent else 0 := by
  have hpos := tp.pos
  split <;> omega

/-! ## What a step of the pool counts -/

variable [DecidableEq F]

def Caller.due (f : F) : Caller F → Nat
  | .undoing g | .pushing g => [g].count f

/-- What a step does to the number of slots in use, to the tasks that callers have, and to the
counter. -/
structure Counts (tp : TaskPool) (s : State F) (e : Event F) (u : State F) : Prop where
  workers : total Worker.slots u.workers ≤ total Worker.slots s.workers ∨
    tp.hasSlot s = true ∧ total Worker.slots u.workers = total Worker.slots s.workers + 1
  callers : ∀ f, u.accepted.count f + total (Caller.due f) u.callers =
    s.accepted.count f + total (Caller.due f) s.callers + e.submits.count f
  concurrent : u.concurrent ≤ s.concurrent + e.adds.toNat

theorem receive_callers {sender : Option Nat} {f : F} (h : receive s sender = some (f, u)) (g : F) :
    u.accepted.count g + total (Caller.due g) u.callers =
      s.accepted.count g + total (Caller.due g) s.callers := by
  cases sender with
  | none =>
    rw [receive] at h
    split at h
    · cases h
      rfl
    · cases h
  | some m =>
    rw [receive] at h
    split at h
    · next f' hqueue hcaller =>
      cases h
      have hcallers := total_eraseIdx (Caller.due g) hcaller
      simp only [Caller.due] at hcallers
      simp only [count_append]
      omega
    · cases h

theorem Counts.of_worker {n : Nat} {w : Worker F} (v : Worker F) (hworker : s.workers[n]? = some w)
    (hworkers : u.workers = s.workers.set n v) (hslots : v.slots ≤ w.slots)
    (hcallers : ∀ f, u.accepted.count f + total (Caller.due f) u.callers =
      s.accepted.count f + total (Caller.due f) s.callers + e.submits.count f)
    (hconcurrent : u.concurrent ≤ s.concurrent) : Counts tp s e u := by
  refine ⟨.inl ?_, hcallers, by omega⟩
  have hset := total_set Worker.slots hworker v
  rw [hworkers]
  omega

theorem Counts.of_workers_eq (hworkers : u.workers = s.workers)
    (hcallers : ∀ f, u.accepted.count f + total (Caller.due f) u.callers =
      s.accepted.count f + total (Caller.due f) s.callers + e.submits.count f)
    (hconcurrent : u.concurrent ≤ s.concurrent + e.adds.toNat) : Counts tp s e u :=
  ⟨.inl (by rw [hworkers]), hcallers, hconcurrent⟩

theorem step_counts (h : step tp s e = some u) : Counts tp s e u := by
  cases step_cases h with
  | goFork hslot =>
    refine ⟨.inr ⟨hslot, ?_⟩, fun g => ?_, Int.le_refl _⟩
    · simp only [spawn, total_append, Worker.slots]
    · simp only [spawn, count_append, Event.submits]
      omega
  | goFull hslot =>
    refine .of_workers_eq rfl (fun g => ?_) (Int.le_refl _)
    simp only [total_append, Caller.due, Event.submits]
    omega
  | @undo n f hcaller =>
    refine .of_workers_eq rfl (fun g => ?_) (by simp only; omega)
    have hcallers := total_set (Caller.due g) hcaller (.pushing f)
    simp only [Caller.due] at hcallers
    simp only [Event.submits, count_nil]
    omega
  | push hcaller hroom =>
    refine .of_workers_eq rfl (fun g => ?_) (by simp only; omega)
    have hcallers := total_eraseIdx (Caller.due g) hcaller
    simp only [Caller.due] at hcallers
    simp only [Event.submits, count_append, count_nil]
    omega
  | start hworker =>
    exact .of_worker _ hworker rfl (Nat.le_refl _) (fun _ => rfl) (Int.le_refl _)
  | finish hworker =>
    exact .of_worker _ hworker rfl (Nat.le_refl _) (fun _ => rfl) (Int.le_refl _)
  | @take n sender f t hworker hreceive =>
    have hr := receive_received hreceive
    have hcallers := receive_callers hreceive
    refine .of_worker (.starting f) hworker ?_ (Nat.le_refl _) hcallers ?_
    · simp only [hr.workers]
    · simp only [hr.concurrent, Int.le_refl]
  | leave hworker hqueue =>
    exact .of_worker _ hworker rfl (Nat.le_refl _) (fun _ => rfl) (Int.le_refl _)
  | release hworker =>
    exact .of_worker _ hworker rfl (Nat.zero_le _) (fun _ => rfl) (by simp only; omega)
  | post hworker =>
    have hslots := total_eraseIdx Worker.slots hworker
    exact ⟨.inl (by simp only; omega), fun _ => rfl, by simp only; omega⟩
  | dispatch hdispatcher hreceive =>
    have hr := receive_received hreceive
    have hcallers := receive_callers hreceive
    exact .of_workers_eq hr.workers hcallers (by simp only [hr.concurrent]; omega)
  | dispatchFork hdispatcher hslot =>
    refine ⟨.inr ⟨hslot, ?_⟩, fun _ => rfl, Int.le_refl _⟩
    simp only [spawn, total_append, Worker.slots]
  | dispatchFull hdispatcher hslot => exact .of_workers_eq rfl (fun _ => rfl) (Int.le_refl _)
  | dispatchUndo hdispatcher => exact .of_workers_eq rfl (fun _ => rfl) (by simp only; omega)
  | dispatchWake hdispatcher htoken =>
    exact .of_workers_eq rfl (fun _ => rfl) (by simp only; omega)

/-! ## The invariant -/

structure Inv (tp : TaskPool) (s : Stoppable F) : Prop where
  counter : s.pool.concurrent = s.pool.slots + if s.bumped then tp.maxConcurrent else 0
  small : s.pool.concurrent < 2 ^ 63
  workers : (total Worker.slots s.pool.workers : Int) ≤ tp.maxConcurrent
  accepted : ∀ f, s.pool.accepted.count f =
    s.pool.started.count f + s.pool.due f + s.dropped.count f
  submitted : ∀ f, s.submitted.count f =
    s.pool.accepted.count f + total (Caller.due f) s.pool.callers + s.refused.count f
  closed : s.chClose = true → s.bumped = true
  kept : s.bumped = false → s.refused = [] ∧ s.dropped = []

variable {t t' : Stoppable F}

theorem Inv.pool_step (h : Inv tp t) (hguard : NoOverflow tp t (.pool e))
    (hstep : poolStep tp t.pool e = some u) : step tp t.pool e = some u ∧
      u.concurrent = u.slots + (if t.bumped then tp.maxConcurrent else 0) ∧
        u.concurrent < 2 ^ 63 := by
  have hcounter := h.counter
  have hsmall := h.small
  have hbump := bump_nonneg tp t.bumped
  have hcounts : ∀ u, step tp t.pool e = some u →
      u.concurrent = u.slots + (if t.bumped then tp.maxConcurrent else 0) ∧
        u.concurrent < 2 ^ 63 := by
    intro u hu
    have hslots := (step_moves hu).slots
    have hadds := (step_counts hu).concurrent
    refine ⟨by omega, ?_⟩
    cases he : e.adds with
    | true =>
      have hlt := hguard he
      rw [he, Bool.toNat_true] at hadds
      omega
    | false =>
      rw [he, Bool.toNat_false] at hadds
      omega
  have heq : poolStep tp t.pool e = step tp t.pool e := by
    refine poolStep_eq (by omega) hguard fun u hu => ?_
    obtain ⟨hu₁, hu₂⟩ := hcounts u hu
    exact int64_of_lt (by omega) hu₂
  rw [heq] at hstep
  exact ⟨hstep, hcounts u hstep⟩

theorem Inv.pool (h : Inv tp t) (hguard : NoOverflow tp t (.pool e))
    (hstep : poolStep tp t.pool e = some u) :
    Inv tp { t with pool := u, submitted := t.submitted ++ e.submits } := by
  obtain ⟨hbase, hcounter, hsmall⟩ := h.pool_step hguard hstep
  have hmoves := step_moves hbase
  have hcounts := step_counts hbase
  refine ⟨hcounter, hsmall, ?_, fun f => ?_, fun f => ?_, h.closed, h.kept⟩
  · rcases hcounts.workers with hle | ⟨hslot, heq⟩
    · have hworkers := h.workers
      simp only
      omega
    · -- an `acquire` that succeeds has found the workers and a free slot in the counter
      have hfree := of_decide_eq_true hslot
      have hold := h.counter
      simp only [State.slots] at hold
      simp only
      omega
  · have hdue := hmoves.due f
    have hold := h.accepted f
    simp only
    omega
  · have hcallers := hcounts.callers f
    have hold := h.submitted f
    simp only [count_append]
    omega

theorem init_inv : Inv tp (Stoppable.init : Stoppable F) where
  counter := rfl
  small := show (0 : Int) < 2 ^ 63 by decide
  workers := by
    have hpos := tp.pos
    simp only [Stoppable.init, Taskpool.init, total_nil]
    omega
  accepted := fun f => rfl
  submitted := fun f => rfl
  closed := nofun
  kept := fun _ => ⟨rfl, rfl⟩

theorem step_inv {e : StopEvent F} (h : Inv tp t) (hguard : NoOverflow tp t e)
    (hstep : stopStep tp t e = some t') : Inv tp t' := by
  cases e with
  | pool e =>
    rw [stopStep] at hstep
    split at hstep
    · cases hstep
    · obtain ⟨u, hu, rfl⟩ := Option.map_eq_some_iff.1 hstep
      exact h.pool hguard hu
  | stop =>
    obtain ⟨hbumped, ⟨⟩⟩ := ite_none_left_eq_some.1 hstep
    have hcounter := h.counter
    have hpos := tp.pos
    have hlt : t.pool.concurrent + tp.maxConcurrent < 2 ^ 63 := hguard
    rw [if_neg hbumped] at hcounter
    rw [int64_of_lt (by omega) hlt]
    refine { h with counter := ?_, small := hlt, closed := fun _ => rfl, kept := nofun }
    simp only [if_true, State.slots] at hcounter ⊢
    omega
  | close =>
    obtain ⟨hopen, ⟨⟩⟩ := ite_none_right_eq_some.1 hstep
    exact { h with closed := fun _ => (Bool.and_eq_true _ _ ▸ hopen).1 }
  | abandon n =>
    rw [stopStep] at hstep
    split at hstep
    · next f hcaller hclosed =>
      cases hstep
      have hbumped := h.closed hclosed
      have hslots := total_eraseIdx Caller.slots hcaller
      refine { h with counter := ?_, submitted := fun g => ?_, kept := fun hb => ?_ }
      · have hcounter := h.counter
        simp only [Caller.slots] at hslots
        simp only [State.slots] at hcounter ⊢
        omega
      · have hdue := total_eraseIdx (Caller.due g) hcaller
        have hsubmitted := h.submitted g
        simp only [Caller.due] at hdue
        simp only [count_append]
        omega
      · rw [hbumped] at hb
        cases hb
    · cases hstep
  | exit =>
    obtain ⟨hopen, hstep⟩ := ite_none_right_eq_some.1 hstep
    have hbumped := h.closed (Bool.and_eq_true _ _ ▸ hopen).1
    split at hstep
    · cases hstep
      exact { h with }
    · next f hdispatcher =>
      cases hstep
      refine { h with counter := ?_, accepted := fun g => ?_, kept := fun hb => ?_ }
      · have hcounter := h.counter
        simp only [State.slots, hdispatcher, Dispatcher.slots] at hcounter ⊢
        omega
      · have haccepted := h.accepted g
        simp only [State.due, hdispatcher, Dispatcher.due, count_append] at haccepted ⊢
        omega
      · rw [hbumped] at hb
        cases hb
    · cases hstep

/-! ## Whole runs -/

/-- In a run in which no addition overflows, at most `maxConcurrent` workers have a slot, a task is
called no more often than it was submitted, before `Stop` no task is lost, and behind the addition
of `Stop` no `acquire` succeeds. -/
theorem bounded_and_at_most_once (tp : TaskPool) (s : Stoppable F)
    (h : Reaches (stopStep tp) (NoOverflow tp) Stoppable.init s) :
    (total Worker.slots s.pool.workers : Int) ≤ tp.maxConcurrent ∧
      (∀ f, s.pool.started.count f ≤ s.submitted.count f) ∧
      (s.bumped = false → s.refused = [] ∧ s.dropped = [] ∧
        ∀ f, s.pool.accepted.count f = s.pool.started.count f + s.pool.due f) ∧
      (s.bumped = true → s.pool.concurrent + 1 < 2 ^ 63 → (acquire tp s.pool).1 = false) := by
  have hinv : Inv tp s := h.invariant init_inv fun _ _ _ ht hguard hstep => step_inv ht hguard hstep
  refine ⟨hinv.workers, fun f => ?_, fun hb => ?_, fun hb hlt => ?_⟩
  · have haccepted := hinv.accepted f
    have hsubmitted := hinv.submitted f
    omega
  · obtain ⟨hrefused, hdropped⟩ := hinv.kept hb
    refine ⟨hrefused, hdropped, fun f => ?_⟩
    have haccepted := hinv.accepted f
    rw [hdropped] at haccepted
    exact haccepted
  · have hcounter := hinv.counter
    have hpos := tp.pos
    rw [hb, if_pos rfl] at hcounter
    rw [acquire, int64_of_lt (by omega) hlt]
    simp only [decide_eq_false_iff_not]
    omega

/-- One worker and no queue: the second task finds no room and is given up behind `Stop`. -/
def stoppingRun : List (StopEvent Nat) :=
  [.pool (.go 1), .pool (.go 2), .pool (.undo 0), .stop, .close, .abandon 0, .pool (.start 0),
    .pool (.finish 0), .pool (.leave 0), .pool (.release 0), .exit]

theorem bounded_and_at_most_once_stopping :
    ∃ s, Reaches (stopStep (New 1 0)) (NoOverflow (New 1 0)) Stoppable.init s ∧
      s.pool.started = [1] ∧ s.refused = [2] ∧ s.bumped = true ∧
      (total Worker.slots s.pool.workers : Int) ≤ 1 ∧ (acquire (New 1 0) s.pool).1 = false := by
  obtain ⟨s, hrun, hstarted, hrefused, hbumped, hsmall⟩ :
      ∃ s, stoppingRun.foldlM
          (guarded (stopStep (New 1 0)) fun s e => decide (NoOverflow (New 1 0) s e))
          Stoppable.init = some s ∧ s.pool.started = [1] ∧ s.refused = [2] ∧ s.bumped = true ∧
          s.pool.concurrent = 1 :=
    ⟨_, rfl, rfl, rfl, rfl, rfl⟩
  have hreach : Reaches (stopStep (New 1 0)) (NoOverflow (New 1 0)) Stoppable.init s :=
    (Reaches.of_foldlM hrun).mono fun _ _ h => of_decide_eq_true h
  obtain ⟨hworkers, -, -, hacquire⟩ := bounded_and_at_most_once (New 1 0) s hreach
  exact ⟨s, hreach, hstarted, hrefused, hbumped, hworkers,
    hacquire hbumped (by rw [hsmall]; decide)⟩

/-- With the largest bound there is, the addition behind that of `Stop` overflows, and a task is
started in a pool that has been stopped. -/
theorem acquire_behind_stop_succeeds :
    ∃ s u, [StopEvent.stop, .close].foldlM (stopStep (New (2 ^ 63 - 1) 0)) Stoppable.init = some s ∧
      s.bumped = true ∧ (acquire (New (2 ^ 63 - 1) 0) s.pool).1 = true ∧
      stopStep (New (2 ^ 63 - 1) 0) s (.pool (.go 1)) = some u ∧
      u.pool.workers = [Worker.starting 1] :=
  ⟨_, _, rfl, rfl, by decide, rfl, by decide⟩

end Nbio.Taskpool
