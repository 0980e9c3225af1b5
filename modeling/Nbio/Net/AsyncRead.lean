import Nbio.Lib.Machine
import Nbio.Net.Conn

/-!
# Asynchronous reading

With `AsyncReadInPoller` the poller does not read itself: `AsyncRead` submits a task that reads
until there is nothing left.  Without EPOLLONESHOT a reading event may come while a task is in
flight, and `readEvents` says what is going on: it is added to for an event and subtracted from at
the end of a pass over the socket, and a task ends when it reaches 0.  A third event is dropped, by
an addition and a subtraction between which the task may see the sum.

One step is one of these additions and subtractions, the beginning of a pass, or its reads.  A task
is in flight from the addition that found the counter at 0.  The poller serves a connection alone,
so there is no other `AsyncRead` between the two steps of one.
-/

namespace Nbio.Net

/-! ## A pass -/

/-- What `ReadAndGetConn` returns. -/
structure Read where
  n : Int
  err : Option Err
deriving DecidableEq, Repr

/-- What a pass reads of `Engine` and `Conn`: `MaxConnReadTimesPerEventLoop`, `isDatagram` and the
length of the buffer. -/
structure Reader where
  maxConnReadTimesPerEventLoop : Nat
  isDatagram : Bool
  bufLen : Nat

/-- The loop of a pass over the calls from `i` on, with a buffer of length `len`: the error that
ends the task, or `none` if the pass ends in another way. -/
def readLoop (isDatagram : Bool) (reads : Nat → Read) : Nat → Nat → Nat → Option Err
  | 0, _, _ => none
  | times + 1, i, len =>
    let r := reads i
    -- the buffer is cut to what has been read, also for the calls that follow
    let len := if 0 < r.n then r.n.toNat else len
    match r.err with
    | some (.errno .eintr) => readLoop isDatagram reads times (i + 1) len
    | some (.errno .eagain) => none
    | some err => some err
    | none =>
      if r.n < len && !isDatagram then none else readLoop isDatagram reads times (i + 1) len

def Reader.pass (rd : Reader) (reads : Nat → Read) : Option Err :=
  readLoop rd.isDatagram reads rd.maxConnReadTimesPerEventLoop 0 rd.bufLen

namespace ReadEvents

open Nbio.Lib Option

/-! ## The counter -/

/-- Where a task is: before a pass, in it, behind its reads. -/
inductive Task where
  | waiting | reading | passed
deriving DecidableEq, Repr

/-- `readEvents` and the goroutines that use it. -/
structure State where
  readEvents : Int
  closed : Bool
  /-- The poller is behind the addition and before the subtraction of `AsyncRead`. -/
  between : Bool
  tasks : List Task
  /-- An event has come and no pass has begun since. -/
  unserved : Bool
  /-- A task has ended with an event unserved. -/
  lost : Bool
deriving DecidableEq, Repr

def init : State where
  readEvents := 0
  closed := false
  between := false
  tasks := []
  unserved := false
  lost := false

/-- `AsyncRead`, up to its first return or to its subtraction. -/
def AsyncRead (s : State) : State :=
  let cnt := s.readEvents + 1
  let s := { s with readEvents := cnt, unserved := true }
  if 2 < cnt then { s with between := true }
  else if 1 < cnt then s
  else { s with tasks := s.tasks ++ [Task.waiting] }

/-- The subtraction of task `n` at the end of a pass. -/
def endPass (s : State) (n : Nat) : State :=
  let cnt := s.readEvents - 1
  if cnt = 0 then
    { s with readEvents := cnt, tasks := s.tasks.eraseIdx n, lost := s.lost || s.unserved }
  else { s with readEvents := cnt, tasks := s.tasks.set n .waiting }

inductive Event where
  /-- A reading event, up to the addition of `AsyncRead`. -/
  | asyncRead
  /-- The subtraction of `AsyncRead`. -/
  | drop
  /-- Task `n` begins a pass. -/
  | begin (n : Nat)
  /-- Task `n` makes its reads; an error closes the connection and ends the task. -/
  | read (n : Nat) (reads : Nat → Read)
  /-- The subtraction of task `n`. -/
  | endPass (n : Nat)
  | close

def step (rd : Reader) (s : State) : Event → Option State
  | .asyncRead => if s.between then none else some (AsyncRead s)
  | .drop =>
    if s.between then some { s with readEvents := s.readEvents - 1, between := false } else none
  | .begin n =>
    match s.tasks[n]? with
    | some .waiting => some { s with tasks := s.tasks.set n .reading, unserved := false }
    | _ => none
  | .read n reads =>
    match s.tasks[n]?, rd.pass reads with
    | some .reading, none => some { s with tasks := s.tasks.set n .passed }
    | some .reading, some _ => some { s with tasks := s.tasks.eraseIdx n, closed := true }
    | _, _ => none
  | .endPass n =>
    match s.tasks[n]? with
    | some .passed => some (endPass s n)
    | _ => none
  | .close => some { s with closed := true }

/-! ## One reader -/

/-- What the counter is for. -/
structure OneReader (s : State) : Prop where
  nonneg : 0 ≤ s.readEvents
  alone : s.tasks.length ≤ 1
  zero : s.between = false → s.closed = false → (s.readEvents = 0 ↔ s.tasks = [])
  served : s.lost = false

/-- No task ends a pass between the two steps of a dropped event, except where the dropped event
itself is still counted. -/
def Timely (s : State) : Event → Prop
  | .endPass _ => s.between = true → 2 < s.readEvents
  | _ => True

instance (s : State) : DecidablePred (Timely s)
  | .endPass _ => inferInstanceAs (Decidable (_ → _))
  | .asyncRead | .drop | .begin _ | .read _ _ | .close => inferInstanceAs (Decidable True)

/-- There is a task, or one has failed and left the counter as it was, or all is quiet. -/
inductive Inv (s : State) : Prop where
  | quiet (htasks : s.tasks = []) (hbetween : s.between = false) (hevents : s.readEvents = 0)
    (hserved : s.unserved = false) (hlost : s.lost = false)
  | busy (t : Task) (again : Nat) (htasks : s.tasks = [t]) (hagain : again ≤ 1)
    (hevents : s.readEvents = 1 + again + s.between.toNat)
    (hserved : t ≠ .waiting → s.unserved = true → again = 1) (hlost : s.lost = false)
  | failed (again : Nat) (htasks : s.tasks = []) (hclosed : s.closed = true) (hagain : again ≤ 1)
    (hevents : s.readEvents = 1 + again + s.between.toNat) (hlost : s.lost = false)

variable {rd : Reader} {s u : State} {n : Nat} {t : Task}

theorem init_inv : Inv init := .quiet rfl rfl rfl rfl rfl

theorem Inv.task (h : Inv s) (ht : s.tasks[n]? = some t) :
    n = 0 ∧ s.tasks = [t] ∧ s.lost = false ∧ ∃ again : Nat, again ≤ 1 ∧
      s.readEvents = 1 + again + s.between.toNat ∧
      (t ≠ .waiting → s.unserved = true → again = 1) := by
  cases h with
  | quiet htasks =>
    rw [htasks] at ht
    cases ht
  | busy t' again htasks hagain hevents hserved hlost =>
    rw [htasks] at ht
    cases n with
    | zero =>
      obtain rfl : t' = t := Option.some.inj ht
      exact ⟨rfl, htasks, hlost, again, hagain, hevents, hserved⟩
    | succ n => cases ht
  | failed again htasks =>
    rw [htasks] at ht
    cases ht

/-- An event that comes while the counter is not 0 is counted once, or about to be dropped. -/
theorem AsyncRead_counted {again : Nat} (hagain : again ≤ 1) (hevents : s.readEvents = 1 + again)
    (hbetween : s.between = false) :
    ∃ b : Bool, AsyncRead s =
      { s with readEvents := 1 + (1 : Nat) + b.toNat, between := b, unserved := true } := by
  unfold AsyncRead
  obtain rfl | rfl : again = 0 ∨ again = 1 := by omega
  · simp [hevents, hbetween]
  · simp [hevents]

theorem AsyncRead_inv (h : Inv s) (hbetween : s.between = false) : Inv (AsyncRead s) := by
  cases h with
  | quiet htasks _ hevents hserved hlost =>
    refine .busy .waiting 0 ?_ (by omega) ?_ (fun hne => absurd rfl hne) ?_
    · simp [AsyncRead, hevents, htasks]
    · simp [AsyncRead, hevents, hbetween]
    · simp [AsyncRead, hevents, hlost]
  | busy t again htasks hagain hevents hserved hlost =>
    obtain ⟨b, hb⟩ := AsyncRead_counted hagain (by simpa [hbetween] using hevents) hbetween
    rw [hb]
    exact .busy t 1 htasks (by omega) rfl (fun _ _ => rfl) hlost
  | failed again htasks hclosed hagain hevents hlost =>
    obtain ⟨b, hb⟩ := AsyncRead_counted hagain (by simpa [hbetween] using hevents) hbetween
    rw [hb]
    exact .failed 1 htasks hclosed (by omega) rfl hlost

theorem drop_inv (h : Inv s) (hbetween : s.between = true) :
    Inv { s with readEvents := s.readEvents - 1, between := false } := by
  cases h with
  | quiet _ hquiet =>
    rw [hbetween] at hquiet
    cases hquiet
  | busy t again htasks hagain hevents hserved hlost =>
    refine .busy t again htasks hagain ?_ hserved hlost
    rw [hbetween] at hevents
    simp only [hevents, Bool.toNat_true, Bool.toNat_false]
    omega
  | failed again htasks hclosed hagain hevents hlost =>
    refine .failed again htasks hclosed hagain ?_ hlost
    rw [hbetween] at hevents
    simp only [hevents, Bool.toNat_true, Bool.toNat_false]
    omega

/-- The end of a pass: where the counter reaches 0 no event has come during the pass. -/
theorem endPass_inv (h : Inv s) (ht : s.tasks[n]? = some .passed)
    (htimely : s.between = true → 2 < s.readEvents) : Inv (endPass s n) := by
  obtain ⟨rfl, htasks, hlost, again, hagain, hevents, hserved⟩ := h.task ht
  have hpass : s.unserved = true → again = 1 := hserved nofun
  unfold endPass
  by_cases hend : s.readEvents - 1 = 0
  · have hnone : s.between = false ∧ again = 0 := by
      cases hb : s.between with
      | true =>
        have hmany := htimely hb
        omega
      | false =>
        exact ⟨rfl, by omega⟩
    have hunserved : s.unserved = false := by
      by_contra hne
      have hone := hpass (by simpa using hne)
      omega
    rw [if_pos hend]
    exact .quiet (by simp [htasks]) hnone.1 hend hunserved (by simp [hlost, hunserved])
  · rw [if_neg hend]
    refine .busy .waiting (again - 1) (by simp [htasks]) (by omega) ?_ (fun hne => absurd rfl hne)
      hlost
    -- another pass is owed, so that one can be taken off what is owed
    have hone : again = 1 := by
      cases hb : s.between with
      | true =>
        have hmany := htimely hb
        rw [hb, Bool.toNat_true] at hevents
        omega
      | false =>
        rw [hb, Bool.toNat_false] at hevents
        omega
    simp only [hone]
    omega

theorem step_inv (h : Inv s) {e : Event} (htimely : Timely s e) (hstep : step rd s e = some u) :
    Inv u := by
  cases e with
  | asyncRead =>
    obtain ⟨hbetween, ⟨⟩⟩ := ite_none_left_eq_some.1 hstep
    exact AsyncRead_inv h (by simpa using hbetween)
  | drop =>
    obtain ⟨hbetween, ⟨⟩⟩ := ite_none_right_eq_some.1 hstep
    exact drop_inv h hbetween
  | begin n =>
    rw [step] at hstep
    split at hstep
    · next ht =>
      cases hstep
      obtain ⟨rfl, htasks, hlost, again, hagain, hevents, -⟩ := h.task ht
      refine .busy .reading again ?_ hagain hevents nofun hlost
      simp [htasks]
    · cases hstep
  | read n reads =>
    rw [step] at hstep
    split at hstep
    · next ht _ =>
      cases hstep
      obtain ⟨rfl, htasks, hlost, again, hagain, hevents, hserved⟩ := h.task ht
      refine .busy .passed again ?_ hagain hevents (fun _ => hserved nofun) hlost
      simp [htasks]
    · next ht _ =>
      cases hstep
      obtain ⟨rfl, htasks, hlost, again, hagain, hevents, -⟩ := h.task ht
      refine .failed again ?_ rfl hagain hevents hlost
      simp [htasks]
    · cases hstep
  | endPass n =>
    rw [step] at hstep
    split at hstep
    · next ht =>
      cases hstep
      exact endPass_inv h ht htimely
    · cases hstep
  | close =>
    cases hstep
    cases h with
    | quiet htasks hbetween hevents hserved hlost =>
      exact .quiet htasks hbetween hevents hserved hlost
    | busy t again htasks hagain hevents hserved hlost =>
      exact .busy t again htasks hagain hevents hserved hlost
    | failed again htasks hclosed hagain hevents hlost =>
      exact .failed again htasks rfl hagain hevents hlost

theorem Inv.oneReader (h : Inv s) : OneReader s := by
  cases h with
  | quiet htasks hbetween hevents hserved hlost =>
    exact ⟨by omega, by simp [htasks], fun _ _ => iff_of_true hevents htasks, hlost⟩
  | busy t again htasks hagain hevents hserved hlost =>
    refine ⟨by omega, by simp [htasks], fun _ _ => iff_of_false (by omega) ?_, hlost⟩
    rw [htasks]
    exact List.cons_ne_nil _ _
  | failed again htasks hclosed hagain hevents hlost =>
    refine ⟨by omega, by simp [htasks], fun _ hopen => ?_, hlost⟩
    rw [hclosed] at hopen
    cases hopen

/-- As long as no task ends a pass while a dropped event is no longer counted and not yet taken
back, a connection has one reader, and no event is lost. -/
theorem one_reader (rd : Reader) (s : State) (h : Reaches (step rd) Timely init s) : OneReader s :=
  Inv.oneReader (h.invariant init_inv fun _ _ _ ht htimely hstep => step_inv ht htimely hstep)

/-- The engine's defaults for edge-triggered polling. -/
def plainReader : Reader :=
  { maxConnReadTimesPerEventLoop := 2 ^ 31 - 1, isDatagram := false, bufLen := 65536 }

def drained : Nat → Read := fun _ => { n := -1, err := some (.errno .eagain) }

/-- A task in its first pass, another event, and a third one that is dropped at the end of the
pass. -/
def droppedInTime : List Event :=
  [.asyncRead, .begin 0, .asyncRead, .asyncRead, .read 0 drained, .endPass 0, .drop, .begin 0,
    .read 0 drained, .endPass 0]

theorem one_reader_third_event :
    ∃ s, Reaches (step plainReader) Timely init s ∧ s.readEvents = 0 ∧ s.tasks = [] ∧
      OneReader s := by
  obtain ⟨s, hrun, hevents, htasks⟩ :
      ∃ s, droppedInTime.foldlM (guarded (step plainReader) fun s e => decide (Timely s e)) init =
        some s ∧ s.readEvents = 0 ∧ s.tasks = [] :=
    ⟨_, rfl, rfl, rfl⟩
  have hreach : Reaches (step plainReader) Timely init s :=
    (Reaches.of_foldlM hrun).mono fun _ _ h => of_decide_eq_true h
  exact ⟨s, hreach, hevents, htasks, one_reader plainReader s hreach⟩

/-- The same with three passes before the third event is dropped. -/
def droppedLate : List Event :=
  [.asyncRead, .begin 0, .asyncRead, .asyncRead, .read 0 drained, .endPass 0, .begin 0,
    .read 0 drained, .endPass 0, .begin 0, .read 0 drained, .endPass 0, .drop]

/-- The counter falls below 0, and then every event finds it there and gets a task of its own. -/
theorem dropped_event_is_counted_off :
    ∃ s t, droppedLate.foldlM (step plainReader) init = some s ∧ s.readEvents = -1 ∧
      s.closed = false ∧
      [Event.asyncRead, Event.asyncRead].foldlM (step plainReader) s = some t ∧
      t.tasks.length = 2 :=
  ⟨_, _, rfl, rfl, rfl, rfl, rfl⟩

end ReadEvents

end Nbio.Net
