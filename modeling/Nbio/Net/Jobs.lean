import Mathlib.Data.List.Nodup
import Nbio.Lib.Machine

/-!
# The job list of a connection

`Execute` and `MustExecute` append a job to the list of a connection under its lock, and the caller
that finds the list empty submits a runner to the engine.  The runner calls the jobs one after
the other; it keeps an index into the list, which is only cut back when the runner has reached its
end.  The engine runs what is submitted once, at any later time.

A job that panics is recovered from, so that it ends like any other.  `started` and `appended`
record the jobs in the order in which they are called and appended.
-/

namespace Nbio.Net.Jobs

open Nbio.Lib List Option

variable {J : Type}

/-- How far a runner is: its caller is about to hand it to the engine, the engine has it, it is
about to call its job, it is in the call. -/
inductive Phase where
  | submitting | submitted | ready | running
deriving DecidableEq, Repr

/-- The closure of `execute` with its two variables. -/
structure Runner (J : Type) where
  phase : Phase
  i : Nat
  job : Option J
deriving DecidableEq, Repr

/-- The fields of `Conn` that jobs use, and the runners. -/
structure State (J : Type) where
  closed : Bool
  jobList : List (Option J)
  runners : List (Runner J)
  appended : List J
  started : List J
deriving DecidableEq, Repr

def init : State J :=
  { closed := false, jobList := [], runners := [], appended := [], started := [] }

/-! ## The methods -/

/-- The end of `Execute` and `MustExecute`. -/
def append (s : State J) (job : J) : State J :=
  let isHead := s.jobList.isEmpty
  let runner : Runner J := { phase := .submitting, i := 0, job := some job }
  { s with
    jobList := s.jobList ++ [some job]
    runners := if isHead then s.runners ++ [runner] else s.runners
    appended := s.appended ++ [job] }

def Execute (s : State J) (job : J) : Bool × State J :=
  if s.closed then (false, s) else (true, append s job)

def MustExecute (s : State J) (job : J) : State J := append s job

/-- A runner calls its job; a nil function panics at once. -/
def start (s : State J) (n : Nat) (r : Runner J) : State J :=
  { s with
    runners := s.runners.set n { r with phase := .running }
    started := s.started ++ r.job.toList }

/-- The lock of `execute`, behind a job: the runner is at the end of the list, or takes the next
job. -/
def finish (s : State J) (n : Nat) (r : Runner J) : State J :=
  let i := r.i + 1
  if s.jobList.length = i then { s with jobList := [], runners := s.runners.eraseIdx n }
  else
    { s with
      jobList := s.jobList.set i none
      runners := s.runners.set n { phase := .ready, i := i, job := s.jobList[i]?.join } }

inductive Event (J : Type) where
  | execute (job : J)
  | mustExecute (job : J)
  | close
  | submit (n : Nat)
  | start (n : Nat)
  | finish (n : Nat)

def step (s : State J) : Event J → Option (State J)
  | .execute job => some (Execute s job).2
  | .mustExecute job => some (MustExecute s job)
  | .close => some { s with closed := true }
  | .submit n =>
    match s.runners[n]? with
    | some r =>
      if r.phase = .submitting then
        some { s with runners := s.runners.set n { r with phase := .submitted } }
      else none
    | none => none
  | .start n =>
    match s.runners[n]? with
    | some r => if r.phase = .submitted ∨ r.phase = .ready then some (start s n r) else none
    | none => none
  | .finish n =>
    match s.runners[n]? with
    | some r => if r.phase = .running then some (finish s n r) else none
    | none => none

/-! ## The invariant -/

def Runner.called (r : Runner J) : Nat := if r.phase = .running then r.i + 1 else r.i

/-- Nobody has a job to call, or one runner works on the jobs `batch` that were appended since the
list was last empty. -/
inductive Inv (s : State J) : Prop where
  | idle (hlist : s.jobList = []) (hrunners : s.runners = []) (hstarted : s.started = s.appended)
  | busy (done batch : List J) (r : Runner J) (hrunners : s.runners = [r])
    (happended : s.appended = done ++ batch) (hlength : s.jobList.length = batch.length)
    (hi : r.i < batch.length) (hjob : r.job = batch[r.i]?)
    (hlater : s.jobList.drop (r.i + 1) = (batch.drop (r.i + 1)).map some)
    (hstarted : s.started = done ++ batch.take r.called)

theorem init_inv : Inv (init : State J) := .idle rfl rfl rfl

theorem append_inv {s : State J} (h : Inv s) (job : J) : Inv (append s job) := by
  cases h with
  | idle hlist hrunners hstarted =>
    refine .busy s.appended [job] { phase := .submitting, i := 0, job := some job } ?_ rfl ?_
      Nat.zero_lt_one rfl ?_ ?_
    · simp [append, hlist, hrunners]
    · simp [append, hlist]
    · simp [append, hlist]
    · simp [append, hstarted, Runner.called]
  | busy done batch r hrunners happended hlength hi hjob hlater hstarted =>
    have hne : s.jobList.isEmpty = false := by
      cases hlist : s.jobList with
      | nil =>
        rw [hlist, length_nil] at hlength
        omega
      | cons a as => rfl
    refine .busy done (batch ++ [job]) r ?_ ?_ ?_ ?_ ?_ ?_ ?_
    · simp only [append, hne]
      exact hrunners
    · simp [append, happended]
    · simp [append, hlength]
    · rw [length_append]
      omega
    · rw [hjob, getElem?_append_left hi]
    · simp only [append]
      rw [drop_append_of_le_length (by omega), drop_append_of_le_length (by omega), hlater]
      simp
    · have hle : r.called ≤ batch.length := by
        unfold Runner.called
        split <;> omega
      rw [take_append_of_le_length hle]
      exact hstarted

variable {s u : State J} {n : Nat} {r : Runner J}

section

variable (h : Inv s) (hr : s.runners[n]? = some r)

include h hr

theorem Inv.runner :
    n = 0 ∧ s.runners = [r] ∧ ∃ done batch, s.appended = done ++ batch ∧
      s.jobList.length = batch.length ∧ r.i < batch.length ∧ r.job = batch[r.i]? ∧
      s.jobList.drop (r.i + 1) = (batch.drop (r.i + 1)).map some ∧
      s.started = done ++ batch.take r.called := by
  cases h with
  | idle hlist hrunners hstarted =>
    rw [hrunners] at hr
    cases hr
  | busy done batch r' hrunners happended hlength hi hjob hlater hstarted =>
    rw [hrunners] at hr
    cases n with
    | zero =>
      obtain rfl : r' = r := Option.some.inj hr
      exact ⟨rfl, hrunners, done, batch, happended, hlength, hi, hjob, hlater, hstarted⟩
    | succ n => cases hr

theorem Inv.job :
    (r.phase = .running → ∃ k, s.started.length = k + 1 ∧ r.job = s.appended[k]?) ∧
      (r.phase ≠ .running → s.started.length < s.appended.length ∧
        r.job = s.appended[s.started.length]?) := by
  obtain ⟨-, -, done, batch, happended, -, hi, hjob, -, hstarted⟩ := h.runner hr
  rw [hjob, hstarted, happended]
  refine ⟨fun hphase => ⟨done.length + r.i, ?_, ?_⟩, fun hphase => ?_⟩
  · rw [Runner.called, if_pos hphase, length_append, length_take]
    omega
  · rw [getElem?_append_right (Nat.le_add_right _ _), Nat.add_sub_cancel_left]
  · have hlen : (done ++ batch.take r.called).length = done.length + r.i := by
      rw [Runner.called, if_neg hphase, length_append, length_take]
      omega
    rw [hlen, length_append, getElem?_append_right (Nat.le_add_right _ _), Nat.add_sub_cancel_left]
    exact ⟨by omega, rfl⟩

theorem submit_inv (hphase : r.phase = .submitting) :
    Inv { s with runners := s.runners.set n { r with phase := .submitted } } := by
  obtain ⟨rfl, hrunners, done, batch, happended, hlength, hi, hjob, hlater, hstarted⟩ := h.runner hr
  refine .busy done batch { r with phase := .submitted } ?_ happended hlength hi hjob hlater ?_
  · rw [hrunners]
    rfl
  · rw [Runner.called, hphase] at hstarted
    exact hstarted

theorem start_inv (hphase : r.phase ≠ .running) :
    Inv (start s n r) := by
  obtain ⟨rfl, hrunners, done, batch, happended, hlength, hi, hjob, hlater, hstarted⟩ := h.runner hr
  refine .busy done batch { r with phase := .running } ?_ happended hlength hi hjob hlater ?_
  · simp [start, hrunners]
  · rw [Runner.called, if_neg hphase] at hstarted
    simp only [start, Runner.called, if_true, hstarted, hjob, append_assoc]
    rw [take_add_one]

theorem finish_inv (hphase : r.phase = .running) :
    Inv (finish s n r) := by
  obtain ⟨rfl, hrunners, done, batch, happended, hlength, hi, hjob, hlater, hstarted⟩ := h.runner hr
  rw [Runner.called, if_pos hphase] at hstarted
  unfold finish
  by_cases hend : s.jobList.length = r.i + 1
  · rw [if_pos hend]
    refine .idle rfl ?_ ?_
    · rw [hrunners]
      rfl
    · rw [hstarted, happended, take_of_length_le (by omega)]
  · rw [if_neg hend]
    have hnext : r.i + 1 < batch.length := by omega
    -- the entry behind the one that was called has not been touched
    have hentry : s.jobList[r.i + 1]? = some batch[r.i + 1]? := by
      have hhead := congrArg head? hlater
      rw [head?_drop, head?_map, head?_drop] at hhead
      rw [hhead, getElem?_eq_getElem hnext]
      rfl
    refine .busy done batch { phase := .ready, i := r.i + 1, job := batch[r.i + 1]? } ?_ happended
      ?_ hnext rfl ?_ ?_
    · simp [hrunners, hentry]
    · simp [hlength]
    · have hdrop : s.jobList.drop (r.i + 1 + 1) = (batch.drop (r.i + 1 + 1)).map some := by
        rw [← drop_drop, hlater, ← map_drop, drop_drop]
      simp only
      rw [drop_set_of_lt (by omega)]
      exact hdrop
    · exact hstarted

end

theorem step_inv (h : Inv s) {e : Event J} (hstep : step s e = some u) : Inv u := by
  cases e with
  | execute job =>
    cases hstep
    unfold Execute
    split
    · exact h
    · exact append_inv h job
  | mustExecute job =>
    cases hstep
    exact append_inv h job
  | close =>
    cases hstep
    cases h with
    | idle hlist hrunners hstarted => exact .idle hlist hrunners hstarted
    | busy done batch r hrunners happended hlength hi hjob hlater hstarted =>
      exact .busy done batch r hrunners happended hlength hi hjob hlater hstarted
  | submit n =>
    rw [step] at hstep
    split at hstep
    · next r hr =>
      obtain ⟨hphase, ⟨⟩⟩ := ite_none_right_eq_some.1 hstep
      exact submit_inv h hr hphase
    · cases hstep
  | start n =>
    rw [step] at hstep
    split at hstep
    · next r hr =>
      obtain ⟨hphase, ⟨⟩⟩ := ite_none_right_eq_some.1 hstep
      apply start_inv h hr
      rcases hphase with hphase | hphase <;> rw [hphase] <;> decide
    · cases hstep
  | finish n =>
    rw [step] at hstep
    split at hstep
    · next r hr =>
      obtain ⟨hphase, ⟨⟩⟩ := ite_none_right_eq_some.1 hstep
      exact finish_inv h hr hphase
    · cases hstep

/-! ## Jobs are serialised -/

/-- What the job list promises. -/
structure Serial (s : State J) : Prop where
  inOrder : s.started <+: s.appended
  once : s.appended.Nodup → s.started.Nodup
  alone : (s.runners.filter (·.phase = .running)).length ≤ 1
  served : s.jobList ≠ [] → s.runners.length = 1
  rest : s.jobList = [] → s.runners = [] ∧ s.started = s.appended

theorem Inv.serial (h : Inv s) : Serial s := by
  have hstart : s.started <+: s.appended := by
    cases h with
    | idle hlist hrunners hstarted => exact hstarted ▸ prefix_rfl
    | busy done batch r hrunners happended hlength hi hjob hlater hstarted =>
      rw [hstarted, happended]
      exact (prefix_append_right_inj done).2 (List.take_prefix _ _)
  refine ⟨hstart, fun hnodup => hstart.sublist.nodup hnodup, ?_, ?_, ?_⟩
  · cases h with
    | idle hlist hrunners hstarted => simp [hrunners]
    | busy done batch r hrunners happended hlength hi hjob hlater hstarted =>
      rw [hrunners]
      exact length_filter_le _ _
  · intro hne
    cases h with
    | idle hlist hrunners hstarted => exact absurd hlist hne
    | busy done batch r hrunners happended hlength hi hjob hlater hstarted => rw [hrunners]; rfl
  · intro hnil
    cases h with
    | idle hlist hrunners hstarted => exact ⟨hrunners, hstarted⟩
    | busy done batch r hrunners happended hlength hi hjob hlater hstarted =>
      rw [hnil, length_nil] at hlength
      omega

/-- However the calls of `Execute`, `MustExecute` and `Close` and the steps of the runners
interleave, the jobs of a connection are serialised; and `Execute` returns false for a closed
connection, and then appends nothing, and for no other. -/
theorem jobs_serialised (s : State J) (h : Reaches step (fun _ _ => True) init s) :
    Serial s ∧ ∀ job, ((Execute s job).1 = false ↔ s.closed = true) ∧
      (s.closed = true → (Execute s job).2 = s) ∧
      (s.closed = false → (Execute s job).2.appended = s.appended ++ [job]) := by
  have hinv : Inv s := h.invariant init_inv fun _ _ _ ht _ hstep => step_inv ht hstep
  refine ⟨hinv.serial, fun job => ?_⟩
  unfold Execute
  by_cases hclosed : s.closed
  · rw [if_pos hclosed]
    exact ⟨iff_of_true rfl hclosed, fun _ => rfl, fun hopen => absurd hclosed (by simp [hopen])⟩
  · rw [if_neg hclosed]
    exact ⟨iff_of_false Bool.noConfusion hclosed, fun hc => absurd hc hclosed, fun _ => rfl⟩

/-- Two jobs, the second appended while the first one runs and called behind it, and a third one for
a new runner behind a close. -/
def exampleRun : List (Event Nat) :=
  [.execute 1, .submit 0, .start 0, .execute 2, .finish 0, .start 0, .close, .finish 0, .execute 3,
    .mustExecute 4]

theorem jobs_serialised_example :
    ∃ s, exampleRun.foldlM (guarded step fun _ _ => true) init = some s ∧
      s.started = [1, 2] ∧ s.appended = [1, 2, 4] ∧ s.runners.length = 1 ∧ Serial s ∧
      (Execute s 5).1 = false := by
  obtain ⟨s, hrun, hstarted, happended, hrunners, hclosed⟩ :
      ∃ s, exampleRun.foldlM (guarded step fun _ _ => true) init = some s ∧
        s.started = [1, 2] ∧ s.appended = [1, 2, 4] ∧ s.runners.length = 1 ∧ s.closed = true :=
    ⟨_, rfl, rfl, rfl, rfl, rfl⟩
  have hreach : Reaches step (fun _ _ => True) init s := by
    have hguarded := Reaches.of_foldlM hrun
    simp only at hguarded
    exact hguarded
  obtain ⟨hserial, hexecute⟩ := jobs_serialised s hreach
  exact ⟨s, hrun, hstarted, happended, hrunners, hserial, (hexecute 5).1.2 hclosed⟩

end Nbio.Net.Jobs
