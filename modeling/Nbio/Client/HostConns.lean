import Nbio.Lib.Machine

/-!
# The connections of a client to one host

`Client.Do` gets a `ClientConn` from the `hostConns` of its host: an idle one from `chConnss`, or a
new one while fewer than `maxConnNum` have been made, or the next one that becomes idle.  The
handler that it passes to `ClientConn.Do` is called once and puts the connection back.

One step is one select, one atomic addition to `connNum` or one send.  A select of `getConn` may
also end by its timer, at any time.  `connNum` counts connections and calls in progress.
-/

namespace Nbio.Client.HostConns

open Nbio.Lib List

abbrev ClientConn := Nat

/-- A call of `Client.Do`: at the first select of `getConn`, about to add one to `connNum`, about to
take it away, at the second select; then with a connection, until its handler is called, and in
`releaseConn`. -/
inductive Call where
  | selecting
  | creating
  | undoing
  | waiting
  | owning (hc : ClientConn)
  | releasing (hc : ClientConn)
deriving DecidableEq, Repr

/-- `hostConns` and the calls in progress; `closed` is that of the client. -/
structure State where
  closed : Bool
  conns : List ClientConn
  connNum : Int
  chConnss : List ClientConn
  calls : List Call
deriving DecidableEq, Repr

/-- `maxConnNum`, which is also the capacity of `chConnss`. -/
def maxConnNum (maxConnsPerHost : Int) : Nat :=
  if 0 < maxConnsPerHost then maxConnsPerHost.toNat else 1024

def newHostConns : State :=
  { closed := false, conns := [], connNum := 0, chConnss := [], calls := [] }

inductive Event where
  /-- A call of `Client.Do`, up to the first select. -/
  | Do
  /-- Call `n` receives an idle connection, at either select. -/
  | receive (n : Nat)
  /-- Call `n` takes the default of the first select. -/
  | default (n : Nat)
  /-- The timer of call `n` ends one of its selects. -/
  | timeout (n : Nat)
  /-- The addition of call `n`, and what it makes of the sum. -/
  | create (n : Nat)
  /-- Call `n` takes its addition back. -/
  | undo (n : Nat)
  /-- The handler of call `n` is called. -/
  | answer (n : Nat)
  /-- Call `n` sends its connection to `chConnss`. -/
  | release (n : Nat)
  /-- `CloseWithError` of the client. -/
  | close

def step (max : Nat) (s : State) : Event → Option State
  | .Do => some (if s.closed then s else { s with calls := s.calls ++ [.selecting] })
  | .receive n =>
    match s.calls[n]?, s.chConnss with
    | some .selecting, hc :: rest =>
      some { s with chConnss := rest, calls := s.calls.set n (.owning hc) }
    | some .waiting, hc :: rest =>
      some { s with chConnss := rest, calls := s.calls.set n (.owning hc) }
    | _, _ => none
  | .default n =>
    match s.calls[n]?, s.chConnss with
    | some .selecting, [] => some { s with calls := s.calls.set n .creating }
    | _, _ => none
  | .timeout n =>
    match s.calls[n]? with
    | some .selecting => some { s with calls := s.calls.eraseIdx n }
    | some .waiting => some { s with calls := s.calls.eraseIdx n }
    | _ => none
  | .create n =>
    match s.calls[n]? with
    | some .creating =>
      if s.connNum + 1 ≤ max then
        let hc := s.conns.length
        some { s with
          connNum := s.connNum + 1, conns := s.conns ++ [hc], calls := s.calls.set n (.owning hc) }
      else some { s with connNum := s.connNum + 1, calls := s.calls.set n .undoing }
    | _ => none
  | .undo n =>
    match s.calls[n]? with
    | some .undoing => some { s with connNum := s.connNum - 1, calls := s.calls.set n .waiting }
    | _ => none
  | .answer n =>
    match s.calls[n]? with
    | some (.owning hc) => some { s with calls := s.calls.set n (.releasing hc) }
    | _ => none
  | .release n =>
    match s.calls[n]? with
    | some (.releasing hc) =>
      if s.chConnss.length < max then
        some { s with chConnss := s.chConnss ++ [hc], calls := s.calls.eraseIdx n }
      else none
    | _ => none
  | .close => some { s with closed := true }

/-! ## Who has what -/

def Call.has (hc : Nat) : Call → Nat
  | .owning c | .releasing c => [c].count hc
  | _ => 0

def Call.owns : Call → Nat
  | .owning _ | .releasing _ => 1
  | _ => 0

/-- A call has added one that it is going to take away. -/
def Call.excess : Call → Nat
  | .undoing => 1
  | _ => 0

/-- Every connection that was made is idle or with one call, and the counter counts them. -/
structure Inv (max : Nat) (s : State) : Prop where
  counter : s.connNum = s.conns.length + total Call.excess s.calls
  bounded : s.conns.length ≤ max
  places : s.chConnss.length + total Call.owns s.calls = s.conns.length
  place : ∀ hc : Nat, s.chConnss.count hc + total (Call.has hc) s.calls =
    if hc < s.conns.length then 1 else 0

variable {max : Nat} {s u : State}

theorem newHostConns_inv : Inv max newHostConns where
  counter := rfl
  bounded := Nat.zero_le _
  places := rfl
  place := fun _ => rfl

variable {n : Nat}

/-- A call goes on as `v`; the connections stay where they are or move between it and the
channel. -/
theorem Inv.set {c : Call} (h : Inv max s) (hc : s.calls[n]? = some c) (v : Call)
    (hcalls : u.calls = s.calls.set n v) (hconns : u.conns = s.conns)
    (hcounter : u.connNum + c.excess = s.connNum + v.excess)
    (hplaces : u.chConnss.length + v.owns = s.chConnss.length + c.owns)
    (hplace : ∀ hc, u.chConnss.count hc + v.has hc = s.chConnss.count hc + c.has hc) :
    Inv max u := by
  refine ⟨?_, hconns ▸ h.bounded, ?_, fun k => ?_⟩
  · have hold := h.counter
    have hset := total_set Call.excess hc v
    rw [hcalls, hconns]
    omega
  · have hold := h.places
    have hset := total_set Call.owns hc v
    rw [hcalls, hconns]
    omega
  · have hold := h.place k
    have hset := total_set (Call.has k) hc v
    have hmoved := hplace k
    rw [hcalls, hconns]
    omega

theorem Inv.eraseIdx {c : Call} (h : Inv max s) (hc : s.calls[n]? = some c)
    (hcalls : u.calls = s.calls.eraseIdx n) (hconns : u.conns = s.conns)
    (hcounter : u.connNum + c.excess = s.connNum)
    (hplaces : u.chConnss.length = s.chConnss.length + c.owns)
    (hplace : ∀ hc, u.chConnss.count hc = s.chConnss.count hc + c.has hc) : Inv max u := by
  refine ⟨?_, hconns ▸ h.bounded, ?_, fun k => ?_⟩
  · have hold := h.counter
    have herase := total_eraseIdx Call.excess hc
    rw [hcalls, hconns]
    omega
  · have hold := h.places
    have herase := total_eraseIdx Call.owns hc
    rw [hcalls, hconns]
    omega
  · have hold := h.place k
    have herase := total_eraseIdx (Call.has k) hc
    have hmoved := hplace k
    rw [hcalls, hconns]
    omega

theorem Inv.receive {c : Call} {hc : ClientConn} {rest : List ClientConn} (h : Inv max s)
    (hcall : s.calls[n]? = some c) (hchan : s.chConnss = hc :: rest) (hexcess : c.excess = 0)
    (howns : c.owns = 0) (hhas : ∀ k, c.has k = 0) :
    Inv max { s with chConnss := rest, calls := s.calls.set n (.owning hc) } := by
  refine h.set hcall (.owning hc) rfl rfl ?_ ?_ fun k => ?_
  · rw [hexcess]
    rfl
  · rw [hchan, howns]
    rfl
  · rw [hchan, hhas, count_cons, Call.has, count_singleton, Nat.add_zero]

theorem Inv.create (h : Inv max s) (hcall : s.calls[n]? = some .creating)
    (hroom : s.connNum + 1 ≤ max) :
    Inv max { s with
      connNum := s.connNum + 1, conns := s.conns ++ [s.conns.length]
      calls := s.calls.set n (.owning s.conns.length) } := by
  have hcounter := h.counter
  have hexcess := total_set Call.excess hcall (.owning s.conns.length)
  have howns := total_set Call.owns hcall (.owning s.conns.length)
  have hplaces := h.places
  simp only [Call.excess, Call.owns] at hexcess howns
  refine ⟨?_, ?_, ?_, fun k => ?_⟩
  · simp only [length_append, length_singleton]
    omega
  · simp only [length_append, length_singleton]
    omega
  · simp only [length_append, length_singleton]
    omega
  · have hplace := h.place k
    have hhas := total_set (Call.has k) hcall (.owning s.conns.length)
    simp only [Call.has, count_singleton] at hhas
    simp only [length_append, length_singleton]
    -- the number of the new connection was not in use
    by_cases hk : s.conns.length = k
    · have hold : ¬ k < s.conns.length := by omega
      have hnew : k < s.conns.length + 1 := by omega
      rw [if_neg hold] at hplace
      rw [beq_iff_eq.2 hk, if_pos rfl] at hhas
      rw [if_pos hnew]
      omega
    · have hother : k < s.conns.length + 1 ↔ k < s.conns.length := by omega
      rw [beq_false_of_ne hk, if_neg Bool.false_ne_true] at hhas
      simp only [hother]
      omega

theorem step_inv {e : Event} (h : Inv max s) (hstep : step max s e = some u) : Inv max u := by
  cases e with
  | Do =>
    cases hstep
    split
    · exact h
    · refine ⟨?_, h.bounded, ?_, fun k => ?_⟩
      · simpa [Call.excess] using h.counter
      · simpa [Call.owns] using h.places
      · simpa [Call.has] using h.place k
  | receive n =>
    rw [step] at hstep
    split at hstep
    · next hc rest hcall hchan =>
      cases hstep
      exact h.receive hcall hchan rfl rfl fun _ => rfl
    · next hc rest hcall hchan =>
      cases hstep
      exact h.receive hcall hchan rfl rfl fun _ => rfl
    · cases hstep
  | default n =>
    rw [step] at hstep
    split at hstep
    · next hcall hchan =>
      cases hstep
      exact h.set hcall .creating rfl rfl rfl rfl fun _ => rfl
    · cases hstep
  | timeout n =>
    rw [step] at hstep
    split at hstep
    · next hcall =>
      cases hstep
      exact h.eraseIdx hcall rfl rfl (Int.add_zero _) rfl fun _ => rfl
    · next hcall =>
      cases hstep
      exact h.eraseIdx hcall rfl rfl (Int.add_zero _) rfl fun _ => rfl
    · cases hstep
  | create n =>
    rw [step] at hstep
    split at hstep
    · next hcall =>
      split at hstep
      · next hroom =>
        cases hstep
        exact h.create hcall hroom
      · cases hstep
        refine h.set hcall .undoing rfl rfl ?_ rfl fun _ => rfl
        simp only [Call.excess]
        omega
    · cases hstep
  | undo n =>
    rw [step] at hstep
    split at hstep
    · next hcall =>
      cases hstep
      refine h.set hcall .waiting rfl rfl ?_ rfl fun _ => rfl
      simp only [Call.excess]
      omega
    · cases hstep
  | answer n =>
    rw [step] at hstep
    split at hstep
    · next hc hcall =>
      cases hstep
      exact h.set hcall (.releasing hc) rfl rfl rfl rfl fun _ => rfl
    · cases hstep
  | release n =>
    rw [step] at hstep
    split at hstep
    · next hc hcall =>
      split at hstep
      · cases hstep
        refine h.eraseIdx hcall rfl rfl (Int.add_zero _) ?_ fun k => ?_
        · simp [Call.owns]
        · simp [Call.has]
      · cases hstep
    · cases hstep
  | close =>
    cases hstep
    exact ⟨h.counter, h.bounded, h.places, h.place⟩

/-! ## The discipline of the pool -/

theorem Inv.room (h : Inv max s) {hc : ClientConn} (hcall : s.calls[n]? = some (.releasing hc)) :
    s.chConnss.length < max := by
  have hplaces := h.places
  have hbounded := h.bounded
  have hend := total_eraseIdx Call.owns hcall
  simp only [Call.owns] at hend
  omega

/-- However the calls of `Client.Do` for a host interleave, every connection is idle once or with
one call, no more than `maxConnNum` of them are made, and `releaseConn` does not block. -/
theorem pool_discipline (maxConnsPerHost : Int) (s : State)
    (h : Reaches (step (maxConnNum maxConnsPerHost)) (fun _ _ => True) newHostConns s) :
    (∀ hc, s.chConnss.count hc + total (Call.has hc) s.calls ≤ 1) ∧
      s.conns.length ≤ maxConnNum maxConnsPerHost ∧
      ∀ n hc, s.calls[n]? = some (.releasing hc) →
        s.chConnss.length < maxConnNum maxConnsPerHost ∧
        ∃ u, step (maxConnNum maxConnsPerHost) s (.release n) = some u ∧
          u.chConnss = s.chConnss ++ [hc] := by
  have hinv : Inv (maxConnNum maxConnsPerHost) s :=
    h.invariant newHostConns_inv fun _ _ _ ht _ hstep => step_inv ht hstep
  refine ⟨fun hc => ?_, hinv.bounded, fun n hc hcall => ?_⟩
  · have hplace := hinv.place hc
    split at hplace <;> omega
  · have hroom := hinv.room hcall
    refine ⟨hroom, { s with chConnss := s.chConnss ++ [hc], calls := s.calls.eraseIdx n }, ?_, rfl⟩
    rw [step, hcall]
    exact if_pos hroom

/-- Two calls for one connection: the second waits until the first one's handler has been called. -/
def sharedRun : List Event :=
  [.Do, .Do, .default 0, .default 1, .create 0, .create 1, .undo 1, .answer 0, .release 0,
    .receive 0, .answer 0]

theorem pool_discipline_shared :
    ∃ s, sharedRun.foldlM (guarded (step (maxConnNum 1)) fun _ _ => true) newHostConns = some s ∧
      s.calls = [.releasing 0] ∧ s.conns = [0] ∧ s.chConnss.length < 1 := by
  obtain ⟨s, hrun, hcalls, hconns⟩ :
      ∃ s, sharedRun.foldlM (guarded (step (maxConnNum 1)) fun _ _ => true) newHostConns = some s ∧
        s.calls = [.releasing 0] ∧ s.conns = [0] := ⟨_, rfl, rfl, rfl⟩
  have hreach : Reaches (step (maxConnNum 1)) (fun _ _ => True) newHostConns s :=
    (Reaches.of_foldlM hrun).mono fun _ _ _ => trivial
  obtain ⟨-, -, hrelease⟩ := pool_discipline 1 s hreach
  exact ⟨s, hrun, hcalls, hconns, (hrelease 0 0 (by rw [hcalls]; rfl)).1⟩

end Nbio.Client.HostConns
