import Nbio.Lib.Machine

/-!
# The task pool

`Go` starts a worker for its task while fewer than `maxConcurrent` slots are taken, and otherwise
sends the task to `chQqueue`.  A worker runs its task and then what it finds in the queue, and
gives its slot back when the queue is empty.  The dispatcher receives tasks too and starts a
worker for each; where there is no slot it waits for `chSlot`, on which a worker that has given its
slot back leaves a token.

One step is one atomic addition to `concurrent`, one operation on a channel, or the beginning or
end of a task.  `acquire` adds one and takes it away again when the sum is too large, which are two
steps: other goroutines see the sum in between.

A send meets a receiver that waits, or is put into the queue; the former is only needed where the
queue has no room at all.  `Stop` is not part of the model: `chClose` stays open.
-/

namespace Nbio.Taskpool

open Nbio.Lib List

structure TaskPool where
  maxConcurrent : Int
  chQqueueSize : Nat
  pos : 1 ≤ maxConcurrent

def New (maxConcurrent : Int) (chQqueueSize : Nat) : TaskPool where
  maxConcurrent := if maxConcurrent ≤ 0 then 1 else maxConcurrent
  chQqueueSize := chQqueueSize
  pos := by split <;> omega

variable {F : Type}

/-- A goroutine in `Go` whose first addition has failed. -/
inductive Caller (F : Type) where
  | undoing (f : F)
  | pushing (f : F)
deriving DecidableEq, Repr

/-- A goroutine of `fork`: about to call its task, in the call, at its select, and in `release`
before and behind the subtraction. -/
inductive Worker (F : Type) where
  | starting (f : F)
  | running (f : F)
  | looking
  | releasing
  | posting
deriving DecidableEq, Repr

/-- The goroutine of `dispatch`: at its first select, about to add one for its task, about to take
it away, at its second select. -/
inductive Dispatcher (F : Type) where
  | receiving
  | forking (f : F)
  | undoing (f : F)
  | waiting (f : F)
deriving DecidableEq, Repr

/-- The counter, the channels and the goroutines.  `accepted` and `started` record the tasks that
`Go` has handed to a worker or to the queue, and those that have been called. -/
structure State (F : Type) where
  concurrent : Int
  chQqueue : List F
  chSlot : Bool
  callers : List (Caller F)
  workers : List (Worker F)
  dispatcher : Dispatcher F
  accepted : List F
  started : List F
deriving DecidableEq, Repr

def init : State F where
  concurrent := 0
  chQqueue := []
  chSlot := false
  callers := []
  workers := []
  dispatcher := .receiving
  accepted := []
  started := []

/-! ## Steps -/

/-- The first addition of `acquire` leaves a sum that is small enough. -/
def TaskPool.hasSlot (tp : TaskPool) (s : State F) : Bool := s.concurrent + 1 ≤ tp.maxConcurrent

/-- A successful `fork`. -/
def spawn (s : State F) (f : F) : State F :=
  { s with concurrent := s.concurrent + 1, workers := s.workers ++ [Worker.starting f] }

/-- A receive from `chQqueue`, of the first task in it or of the task of a sender that waits. -/
def receive (s : State F) : Option Nat → Option (F × State F)
  | none =>
    match s.chQqueue with
    | f :: rest => some (f, { s with chQqueue := rest })
    | [] => none
  | some m =>
    match s.chQqueue, s.callers[m]? with
    | [], some (.pushing f) =>
      some (f, { s with callers := s.callers.eraseIdx m, accepted := s.accepted ++ [f] })
    | _, _ => none

inductive Event (F : Type) where
  /-- A call of `Go`, up to the addition of `acquire`. -/
  | go (f : F)
  /-- Caller `n` takes its addition back. -/
  | undo (n : Nat)
  /-- Caller `n` puts its task into the queue. -/
  | push (n : Nat)
  | start (n : Nat)
  | finish (n : Nat)
  /-- Worker `n` receives another task. -/
  | take (n : Nat) (sender : Option Nat)
  /-- Worker `n` finds the queue empty. -/
  | leave (n : Nat)
  /-- Worker `n` gives its slot back. -/
  | release (n : Nat)
  /-- Worker `n` leaves a token and ends. -/
  | post (n : Nat)
  /-- The dispatcher receives a task. -/
  | dispatch (sender : Option Nat)
  /-- The addition of the dispatcher. -/
  | dispatchFork
  /-- The dispatcher takes its addition back. -/
  | dispatchUndo
  /-- The dispatcher receives a token. -/
  | dispatchWake

def step (tp : TaskPool) (s : State F) : Event F → Option (State F)
  | .go f =>
    if tp.hasSlot s then some { spawn s f with accepted := s.accepted ++ [f] }
    else
      some { s with concurrent := s.concurrent + 1, callers := s.callers ++ [Caller.undoing f] }
  | .undo n =>
    match s.callers[n]? with
    | some (.undoing f) =>
      some { s with concurrent := s.concurrent - 1, callers := s.callers.set n (.pushing f) }
    | _ => none
  | .push n =>
    match s.callers[n]? with
    | some (.pushing f) =>
      if s.chQqueue.length < tp.chQqueueSize then
        some { s with
          chQqueue := s.chQqueue ++ [f]
          callers := s.callers.eraseIdx n
          accepted := s.accepted ++ [f] }
      else none
    | _ => none
  | .start n =>
    match s.workers[n]? with
    | some (.starting f) =>
      some { s with workers := s.workers.set n (.running f), started := s.started ++ [f] }
    | _ => none
  | .finish n =>
    match s.workers[n]? with
    | some (.running _) => some { s with workers := s.workers.set n .looking }
    | _ => none
  | .take n sender =>
    match s.workers[n]?, receive s sender with
    | some .looking, some (f, s) => some { s with workers := s.workers.set n (.starting f) }
    | _, _ => none
  | .leave n =>
    match s.workers[n]?, s.chQqueue with
    | some .looking, [] => some { s with workers := s.workers.set n .releasing }
    | _, _ => none
  | .release n =>
    match s.workers[n]? with
    | some .releasing =>
      some { s with concurrent := s.concurrent - 1, workers := s.workers.set n .posting }
    | _ => none
  | .post n =>
    match s.workers[n]? with
    | some .posting => some { s with chSlot := true, workers := s.workers.eraseIdx n }
    | _ => none
  | .dispatch sender =>
    match s.dispatcher, receive s sender with
    | .receiving, some (f, s) => some { s with dispatcher := .forking f }
    | _, _ => none
  | .dispatchFork =>
    match s.dispatcher with
    | .forking f =>
      if tp.hasSlot s then some { spawn s f with dispatcher := .receiving }
      else some { s with concurrent := s.concurrent + 1, dispatcher := .undoing f }
    | _ => none
  | .dispatchUndo =>
    match s.dispatcher with
    | .undoing f => some { s with concurrent := s.concurrent - 1, dispatcher := .waiting f }
    | _ => none
  | .dispatchWake =>
    match s.dispatcher, s.chSlot with
    | .waiting f, true => some { s with chSlot := false, dispatcher := .forking f }
    | _, _ => none

inductive Step (tp : TaskPool) (s : State F) : Event F → State F → Prop where
  | goFork {f : F} (hslot : tp.hasSlot s = true) :
    Step tp s (.go f) { spawn s f with accepted := s.accepted ++ [f] }
  | goFull {f : F} (hslot : ¬ tp.hasSlot s = true) :
    Step tp s (.go f)
      { s with concurrent := s.concurrent + 1, callers := s.callers ++ [Caller.undoing f] }
  | undo {n : Nat} {f : F} (hcaller : s.callers[n]? = some (.undoing f)) :
    Step tp s (.undo n)
      { s with concurrent := s.concurrent - 1, callers := s.callers.set n (.pushing f) }
  | push {n : Nat} {f : F} (hcaller : s.callers[n]? = some (.pushing f))
    (hroom : s.chQqueue.length < tp.chQqueueSize) :
    Step tp s (.push n)
      { s with
        chQqueue := s.chQqueue ++ [f]
        callers := s.callers.eraseIdx n
        accepted := s.accepted ++ [f] }
  | start {n : Nat} {f : F} (hworker : s.workers[n]? = some (.starting f)) :
    Step tp s (.start n)
      { s with workers := s.workers.set n (.running f), started := s.started ++ [f] }
  | finish {n : Nat} {f : F} (hworker : s.workers[n]? = some (.running f)) :
    Step tp s (.finish n) { s with workers := s.workers.set n .looking }
  | take {n : Nat} {sender : Option Nat} {f : F} {t : State F}
    (hworker : s.workers[n]? = some .looking) (hreceive : receive s sender = some (f, t)) :
    Step tp s (.take n sender) { t with workers := t.workers.set n (.starting f) }
  | leave {n : Nat} (hworker : s.workers[n]? = some .looking) (hqueue : s.chQqueue = []) :
    Step tp s (.leave n) { s with workers := s.workers.set n .releasing }
  | release {n : Nat} (hworker : s.workers[n]? = some .releasing) :
    Step tp s (.release n)
      { s with concurrent := s.concurrent - 1, workers := s.workers.set n .posting }
  | post {n : Nat} (hworker : s.workers[n]? = some .posting) :
    Step tp s (.post n) { s with chSlot := true, workers := s.workers.eraseIdx n }
  | dispatch {sender : Option Nat} {f : F} {t : State F} (hdispatcher : s.dispatcher = .receiving)
    (hreceive : receive s sender = some (f, t)) :
    Step tp s (.dispatch sender) { t with dispatcher := .forking f }
  | dispatchFork {f : F} (hdispatcher : s.dispatcher = .forking f) (hslot : tp.hasSlot s = true) :
    Step tp s .dispatchFork { spawn s f with dispatcher := .receiving }
  | dispatchFull {f : F} (hdispatcher : s.dispatcher = .forking f) (hslot : ¬ tp.hasSlot s = true) :
    Step tp s .dispatchFork { s with concurrent := s.concurrent + 1, dispatcher := .undoing f }
  | dispatchUndo {f : F} (hdispatcher : s.dispatcher = .undoing f) :
    Step tp s .dispatchUndo { s with concurrent := s.concurrent - 1, dispatcher := .waiting f }
  | dispatchWake {f : F} (hdispatcher : s.dispatcher = .waiting f) (htoken : s.chSlot = true) :
    Step tp s .dispatchWake { s with chSlot := false, dispatcher := .forking f }

theorem step_cases {tp : TaskPool} {s u : State F} {e : Event F} (h : step tp s e = some u) :
    Step tp s e u := by
  cases e with
  | go f =>
    rw [step] at h
    split at h
    · next hslot => cases h; exact .goFork hslot
    · next hslot => cases h; exact .goFull hslot
  | undo n =>
    rw [step] at h
    split at h
    · next hcaller => cases h; exact .undo hcaller
    · cases h
  | push n =>
    rw [step] at h
    split at h
    · next hcaller =>
      split at h
      · next hroom => cases h; exact .push hcaller hroom
      · cases h
    · cases h
  | start n =>
    rw [step] at h
    split at h
    · next hworker => cases h; exact .start hworker
    · cases h
  | finish n =>
    rw [step] at h
    split at h
    · next hworker => cases h; exact .finish hworker
    · cases h
  | take n sender =>
    rw [step] at h
    split at h
    · next hworker hreceive => cases h; exact .take hworker hreceive
    · cases h
  | leave n =>
    rw [step] at h
    split at h
    · next hworker hqueue => cases h; exact .leave hworker hqueue
    · cases h
  | release n =>
    rw [step] at h
    split at h
    · next hworker => cases h; exact .release hworker
    · cases h
  | post n =>
    rw [step] at h
    split at h
    · next hworker => cases h; exact .post hworker
    · cases h
  | dispatch sender =>
    rw [step] at h
    split at h
    · next hdispatcher hreceive => cases h; exact .dispatch hdispatcher hreceive
    · cases h
  | dispatchFork =>
    rw [step] at h
    split at h
    · next hdispatcher =>
      split at h
      · next hslot => cases h; exact .dispatchFork hdispatcher hslot
      · next hslot => cases h; exact .dispatchFull hdispatcher hslot
    · cases h
  | dispatchUndo =>
    rw [step] at h
    split at h
    · next hdispatcher => cases h; exact .dispatchUndo hdispatcher
    · cases h
  | dispatchWake =>
    rw [step] at h
    split at h
    · next hdispatcher htoken => cases h; exact .dispatchWake hdispatcher htoken
    · cases h

/-! ## What is in the hands of whom -/

def Worker.slots : Worker F → Nat
  | .posting => 0
  | _ => 1

/-- A caller has added one and not yet taken it back. -/
def Caller.slots : Caller F → Nat
  | .undoing _ => 1
  | .pushing _ => 0

def Dispatcher.slots : Dispatcher F → Nat
  | .undoing _ => 1
  | _ => 0

def Dispatcher.waits : Dispatcher F → Bool
  | .undoing _ | .waiting _ => true
  | _ => false

section Tasks

variable [DecidableEq F]

def Worker.due (f : F) : Worker F → Nat
  | .starting g => [g].count f
  | _ => 0

def Dispatcher.due (f : F) : Dispatcher F → Nat
  | .receiving => 0
  | .forking g | .undoing g | .waiting g => [g].count f

/-- How often `f` is accepted and not yet called. -/
def State.due (f : F) (s : State F) : Nat :=
  total (Worker.due f) s.workers + s.chQqueue.count f + s.dispatcher.due f

/-- Nothing moves by itself: nobody is in `Go`, there is no worker, and the dispatcher waits for an
empty channel. -/
def State.Quiet (s : State F) : Prop :=
  s.callers = [] ∧ s.workers = [] ∧
    (s.dispatcher = .receiving ∧ s.chQqueue = [] ∨
      (∃ f, s.dispatcher = .waiting f) ∧ s.chSlot = false)

/-- A task that has been accepted is not called, and nothing moves by itself. -/
def State.Stranded (s : State F) : Prop :=
  s.Quiet ∧ ∃ f, s.started.count f < s.accepted.count f

end Tasks

/-! ## One step -/

def State.slots (s : State F) : Nat :=
  total Worker.slots s.workers + total Caller.slots s.callers + s.dispatcher.slots

/-- Somebody will wake a dispatcher that waits: there is a token, or a worker that will leave
one. -/
def State.Awake (s : State F) : Prop := s.chSlot = true ∨ s.workers ≠ []

/-- The dispatcher does not look for a slot while all of them are taken, there is no worker to give
one back and no token from one. -/
def Timely (tp : TaskPool) (s : State F) : Event F → Prop
  | .dispatchFork => tp.hasSlot s = true ∨ s.Awake
  | _ => True

instance (s : State F) [DecidableEq F] : Decidable s.Awake := inferInstanceAs (Decidable (_ ∨ _))

instance (tp : TaskPool) (s : State F) [DecidableEq F] : DecidablePred (Timely tp s)
  | .dispatchFork => inferInstanceAs (Decidable (_ ∨ _))
  | .go _ | .undo _ | .push _ | .start _ | .finish _ | .take _ _ | .leave _ | .release _ | .post _
  | .dispatch _ | .dispatchUndo | .dispatchWake => inferInstanceAs (Decidable True)

variable [DecidableEq F] {tp : TaskPool} {s u : State F} {e : Event F}

/-- What every step does to the counter, to the tasks and to a dispatcher that waits. -/
structure Moves (tp : TaskPool) (s : State F) (e : Event F) (u : State F) : Prop where
  slots : u.concurrent - u.slots = s.concurrent - s.slots
  due : ∀ f, u.accepted.count f + (s.started.count f + s.due f) =
    s.accepted.count f + (u.started.count f + u.due f)
  awake : (s.dispatcher.waits → s.Awake) → Timely tp s e → u.dispatcher.waits → u.Awake

/-- A receive changes the queue and the callers only. -/
structure Received (s : State F) (f : F) (u : State F) : Prop where
  concurrent : u.concurrent = s.concurrent
  chSlot : u.chSlot = s.chSlot
  workers : u.workers = s.workers
  dispatcher : u.dispatcher = s.dispatcher
  started : u.started = s.started
  callers : total Caller.slots u.callers = total Caller.slots s.callers
  due : ∀ g, u.accepted.count g + s.chQqueue.count g =
    s.accepted.count g + (u.chQqueue.count g + [f].count g)

theorem receive_received {sender : Option Nat} {f : F} (h : receive s sender = some (f, u)) :
    Received s f u := by
  cases sender with
  | none =>
    rw [receive] at h
    split at h
    · next g rest hqueue =>
      cases h
      refine ⟨rfl, rfl, rfl, rfl, rfl, rfl, fun g => ?_⟩
      rw [hqueue, count_cons, count_singleton]
    · cases h
  | some m =>
    rw [receive] at h
    split at h
    · next g hqueue hcaller =>
      cases h
      have hcallers := total_eraseIdx Caller.slots hcaller
      refine ⟨rfl, rfl, rfl, rfl, rfl, hcallers, fun g => ?_⟩
      simp only [count_append]
      omega
    · cases h

theorem Moves.of_worker {n : Nat} {w : Worker F} (v : Worker F)
    (hworker : s.workers[n]? = some w) (hworkers : u.workers = s.workers.set n v)
    (hdispatcher : u.dispatcher = s.dispatcher)
    (hcallers : total Caller.slots u.callers = total Caller.slots s.callers)
    (hconcurrent : u.concurrent + w.slots = s.concurrent + v.slots)
    (hdue : ∀ f, u.accepted.count f + (s.started.count f + (w.due f + s.chQqueue.count f)) =
      s.accepted.count f + (u.started.count f + (v.due f + u.chQqueue.count f))) :
    Moves tp s e u := by
  refine ⟨?_, fun f => ?_, fun _ _ _ => ?_⟩
  · have hslots := total_set Worker.slots hworker v
    simp only [State.slots, hworkers, hdispatcher]
    omega
  · have htasks := total_set (Worker.due f) hworker v
    have hcount := hdue f
    simp only [State.due, hworkers, hdispatcher]
    omega
  · right
    rw [hworkers, Ne, set_eq_nil_iff]
    rintro hnil
    rw [hnil] at hworker
    cases hworker

theorem Moves.of_caller (hworkers : u.workers = s.workers)
    (hdispatcher : u.dispatcher = s.dispatcher)
    (hchSlot : u.chSlot = s.chSlot)
    (hconcurrent : u.concurrent + total Caller.slots s.callers =
      s.concurrent + total Caller.slots u.callers)
    (hdue : ∀ f, u.accepted.count f + (s.started.count f + s.chQqueue.count f) =
      s.accepted.count f + (u.started.count f + u.chQqueue.count f)) : Moves tp s e u := by
  refine ⟨?_, fun f => ?_, fun hs _ hwaits => ?_⟩
  · simp only [State.slots, hworkers, hdispatcher]
    omega
  · have hcount := hdue f
    simp only [State.due, hworkers, hdispatcher]
    omega
  · rw [hdispatcher] at hwaits
    unfold State.Awake
    rw [hchSlot, hworkers]
    exact hs hwaits

theorem Moves.of_dispatcher (hworkers : u.workers = s.workers)
    (hcallers : total Caller.slots u.callers = total Caller.slots s.callers)
    (hconcurrent : u.concurrent + s.dispatcher.slots = s.concurrent + u.dispatcher.slots)
    (hdue : ∀ f,
      u.accepted.count f + (s.started.count f + (s.dispatcher.due f + s.chQqueue.count f)) =
      s.accepted.count f + (u.started.count f + (u.dispatcher.due f + u.chQqueue.count f)))
    (hawake : (s.dispatcher.waits → s.Awake) → Timely tp s e → u.dispatcher.waits → u.Awake) :
    Moves tp s e u := by
  refine ⟨?_, fun f => ?_, hawake⟩
  · simp only [State.slots, hworkers]
    omega
  · have hcount := hdue f
    simp only [State.due, hworkers]
    omega

theorem Moves.of_spawn {f : F} (hworkers : u.workers = s.workers ++ [.starting f])
    (hcallers : u.callers = s.callers)
    (hconcurrent : u.concurrent + s.dispatcher.slots = s.concurrent + 1 + u.dispatcher.slots)
    (hdue : ∀ g,
      u.accepted.count g + (s.started.count g + (s.dispatcher.due g + s.chQqueue.count g)) =
      s.accepted.count g +
        (u.started.count g + (u.dispatcher.due g + u.chQqueue.count g + [f].count g))) :
    Moves tp s e u := by
  refine ⟨?_, fun g => ?_, fun _ _ _ => ?_⟩
  · simp only [State.slots, hworkers, hcallers, total_append, Worker.slots]
    omega
  · have hcount := hdue g
    simp only [State.due, hworkers, total_append, Worker.due]
    omega
  · right
    rw [hworkers]
    exact append_ne_nil_of_right_ne_nil _ (cons_ne_nil _ _)

theorem step_moves (h : step tp s e = some u) : Moves tp s e u := by
  cases step_cases h with
  | goFork hslot =>
    refine .of_spawn rfl rfl rfl fun g => ?_
    simp only [spawn, count_append]
    omega
  | goFull hslot =>
    refine .of_caller rfl rfl rfl ?_ fun g => rfl
    simp only [total_append, Caller.slots]
    omega
  | @undo n f hcaller =>
    refine .of_caller rfl rfl rfl ?_ fun g => rfl
    have hcallers := total_set Caller.slots hcaller (.pushing f)
    simp only [Caller.slots] at hcallers ⊢
    omega
  | push hcaller hroom =>
    refine .of_caller rfl rfl rfl ?_ fun g => ?_
    · have hcallers := total_eraseIdx Caller.slots hcaller
      simp only [Caller.slots] at hcallers ⊢
      omega
    · simp only [count_append]
      omega
  | start hworker =>
    refine .of_worker _ hworker rfl rfl rfl rfl fun g => ?_
    simp only [Worker.due, count_append]
    omega
  | finish hworker => exact .of_worker _ hworker rfl rfl rfl rfl fun g => rfl
  | @take n sender f t hworker hreceive =>
    have hr := receive_received hreceive
    refine .of_worker (.starting f) hworker ?_ hr.dispatcher hr.callers ?_ fun g => ?_
    · simp only [hr.workers]
    · simp only [hr.concurrent, Worker.slots]
    · have hdue := hr.due g
      simp only [hr.started, Worker.due]
      omega
  | leave hworker hqueue => exact .of_worker _ hworker rfl rfl rfl rfl fun g => rfl
  | release hworker =>
    refine .of_worker _ hworker rfl rfl rfl ?_ fun g => rfl
    simp only [Worker.slots]
    omega
  | post hworker =>
    refine ⟨?_, fun g => ?_, fun _ _ _ => .inl rfl⟩
    · have hslots := total_eraseIdx Worker.slots hworker
      simp only [Worker.slots] at hslots
      simp only [State.slots]
      omega
    · have htasks := total_eraseIdx (Worker.due g) hworker
      simp only [Worker.due] at htasks
      simp only [State.due]
      omega
  | dispatch hdispatcher hreceive =>
    have hr := receive_received hreceive
    refine .of_dispatcher hr.workers hr.callers ?_ (fun g => ?_) fun _ _ hwaits => ?_
    · simp only [hr.concurrent, hdispatcher, Dispatcher.slots]
    · have hdue := hr.due g
      simp only [hr.started, hdispatcher, Dispatcher.due]
      omega
    · cases hwaits
  | dispatchFork hdispatcher hslot =>
    refine .of_spawn rfl rfl ?_ fun g => ?_
    · simp only [spawn, hdispatcher, Dispatcher.slots]
    · simp only [spawn, hdispatcher, Dispatcher.due]
      omega
  | dispatchFull hdispatcher hslot =>
    refine .of_dispatcher rfl rfl ?_ (fun g => ?_) fun _ htimely _ => ?_
    · simp only [hdispatcher, Dispatcher.slots]
      omega
    · simp only [hdispatcher, Dispatcher.due]
    · exact htimely.resolve_left hslot
  | dispatchUndo hdispatcher =>
    refine .of_dispatcher rfl rfl ?_ (fun g => ?_) fun hs _ _ => hs (by rw [hdispatcher]; rfl)
    · simp only [hdispatcher, Dispatcher.slots]
      omega
    · simp only [hdispatcher, Dispatcher.due]
  | dispatchWake hdispatcher htoken =>
    refine .of_dispatcher rfl rfl ?_ (fun g => ?_) fun _ _ hwaits => ?_
    · simp only [hdispatcher, Dispatcher.slots]
    · simp only [hdispatcher, Dispatcher.due]
    · cases hwaits

/-! ## Whole runs -/

/-- In every run the counter is what the goroutines account for, and an accepted task is called or
in somebody's hands. -/
theorem accounted (h : Reaches (step tp) (fun _ _ => True) init s) :
    s.concurrent = s.slots ∧ ∀ f, s.accepted.count f = s.started.count f + s.due f := by
  refine h.invariant (P := fun s => s.concurrent = s.slots ∧
    ∀ f, s.accepted.count f = s.started.count f + s.due f) ⟨rfl, fun f => rfl⟩ ?_
  intro t e u ⟨hslots, hdue⟩ _ hstep
  have hmoves := step_moves hstep
  refine ⟨?_, fun f => ?_⟩
  · have h' := hmoves.slots
    omega
  · have h' := hmoves.due f
    have h'' := hdue f
    omega

/-- The dispatcher is only untimely through a call of `Go` that is about to take its addition back:
without one, a sum that is too large comes from a worker. -/
theorem timely_of_no_undoing (h : Reaches (step tp) (fun _ _ => True) init s) {f : F}
    (hdispatcher : s.dispatcher = .forking f) (hcallers : total Caller.slots s.callers = 0) :
    Timely tp s .dispatchFork := by
  obtain ⟨hslots, -⟩ := accounted h
  by_cases hslot : tp.hasSlot s = true
  · exact .inl hslot
  · refine .inr (.inr fun hworkers => hslot ?_)
    have hpos := tp.pos
    simp [State.slots, hworkers, hdispatcher, Dispatcher.slots] at hslots
    simp only [TaskPool.hasSlot, decide_eq_true_eq]
    omega

/-- In a run in which the dispatcher is timely it does not wait in vain, and so no accepted task is
stranded. -/
theorem never_stranded (h : Reaches (step tp) (Timely tp) init s) : ¬ s.Stranded := by
  have hwaits : s.dispatcher.waits → s.Awake := by
    refine h.invariant (P := fun s => s.dispatcher.waits → s.Awake) nofun ?_
    intro t e u ht htimely hstep
    exact (step_moves hstep).awake ht htimely
  obtain ⟨-, hdue⟩ := accounted (h.mono fun _ _ _ => trivial)
  rintro ⟨⟨-, hworkers, hblocked⟩, f, hf⟩
  rcases hblocked with ⟨hdispatcher, hqueue⟩ | ⟨⟨g, hdispatcher⟩, hslot⟩
  · have hnone : s.due f = 0 := by
      simp [State.due, hworkers, hdispatcher, hqueue, Dispatcher.due]
    have h' := hdue f
    omega
  · rcases hwaits (by rw [hdispatcher]; rfl) with htoken | hworker
    · rw [hslot] at htoken
      cases htoken
    · exact hworker hworkers

/-- The dispatcher, awake with the second task, finds the addition of the third `Go`, which is taken
back when no worker is left. -/
def strandingRun : List (Event Nat) :=
  [.go 1, .go 2, .undo 0, .push 0, .dispatch none, .dispatchFork, .dispatchUndo, .start 0,
    .finish 0, .go 3, .leave 0, .release 0, .post 0, .dispatchWake, .dispatchFork, .dispatchUndo,
    .undo 0, .push 0]

/-- Two tasks wait in an idle pool of one worker: one with the dispatcher, one in the queue. -/
theorem retry_strands_tasks :
    ∃ s, strandingRun.foldlM (step (New 1 8)) init = some s ∧ s.Stranded ∧ s.concurrent = 0 ∧
      s.dispatcher = .waiting 2 ∧ s.chQqueue = [3] := by
  refine ⟨_, rfl, ⟨⟨rfl, rfl, .inr ⟨⟨2, rfl⟩, rfl⟩⟩, 2, ?_⟩, rfl, rfl, rfl⟩
  decide

/-- The same tasks, with the third `Go` late enough to find the slot free. -/
def orderlyRun : List (Event Nat) :=
  [.go 1, .go 2, .undo 0, .push 0, .dispatch none, .dispatchFork, .dispatchUndo, .start 0,
    .finish 0, .leave 0, .release 0, .post 0, .dispatchWake, .dispatchFork, .start 0, .finish 0,
    .leave 0, .release 0, .post 0, .go 3]

theorem never_stranded_orderly :
    ∃ s, Reaches (step (New 1 8)) (Timely (New 1 8)) init s ∧ s.started = [1, 2] ∧
      s.accepted = [1, 2, 3] ∧ ¬ s.Stranded := by
  obtain ⟨s, hrun, hstarted, haccepted⟩ :
      ∃ s,
        orderlyRun.foldlM (guarded (step (New 1 8)) fun s e => decide (Timely (New 1 8) s e)) init
          = some s ∧ s.started = [1, 2] ∧ s.accepted = [1, 2, 3] :=
    ⟨_, rfl, rfl, rfl⟩
  have hreach : Reaches (step (New 1 8)) (Timely (New 1 8)) init s :=
    (Reaches.of_foldlM hrun).mono fun _ _ h => of_decide_eq_true h
  exact ⟨s, hreach, hstarted, haccepted, never_stranded hreach⟩

end Nbio.Taskpool
