import Nbio.Client.Ownership

/-!
# Every request is answered once

A handler passed to `Do` waits in `handlers` until it is called, by `onResponse` as the first one or
by `closeWithErrorWithoutLock` together with all others.  `State.tally` counts, for a request, the
calls of its handler and its places in `handlers`: no method changes it (`Keeps`), except that `Do`
makes it one for its own request.

The methods may be called in any order; `onResponse` and `CloseWithError` also by others than the
jobs of a connection.
-/

namespace Nbio.Client

open Nbio.Lib List

variable {o : Options} {s t u : State}

/-- How often the handler of request `r` has been called, and how often it waits. -/
def State.tally (s : State) (r : Request) : Nat :=
  (s.log.map Call.request).count r + (s.handlers.map ResHandler.h).count r

/-- What happens to a `ClientConn`: a step of the system, or a call of one of its methods. -/
inductive Act where
  | step (e : Event)
  | onResponse (k : ConnId) (res : Response) (now : Time)
  | closeWithError (cause : Cause) (err : Option Err)

def actStep (o : Options) (s : State) : Act → Option State
  | .step e => step o s e
  | .onResponse k res now => some (onResponse o s k res now)
  | .closeWithError cause err => some (closeWithError s cause err)

/-! ## What the methods keep -/

/-- Who waits has a connection to wait for. -/
def State.connected (s : State) : Prop := s.handlers ≠ [] → s.conn.isSome = true

/-- The methods besides `Do` neither lose nor repeat a call, and accept no request. -/
structure Keeps (s u : State) : Prop where
  tally : ∀ r, u.tally r = s.tally r
  requests : u.requests = s.requests
  closed : (s.closed = true → s.handlers = []) → u.closed = true → u.handlers = []
  connected : s.connected → u.connected

theorem Keeps.refl (s : State) : Keeps s s := ⟨fun _ => rfl, rfl, id, id⟩

theorem Keeps.trans (h : Keeps s t) (h' : Keeps t u) : Keeps s u where
  tally := fun r => (h'.tally r).trans (h.tally r)
  requests := h'.requests.trans h.requests
  closed := fun hs => h'.closed (h.closed hs)
  connected := fun hs => h'.connected (h.connected hs)

theorem Keeps.of_eq (hlog : u.log = s.log) (hhandlers : u.handlers = s.handlers)
    (hrequests : u.requests = s.requests) (hclosed : u.closed = s.closed)
    (hconn : u.conn = s.conn) : Keeps s u := by
  refine ⟨fun r => ?_, hrequests, fun hs hu => ?_, fun hs => ?_⟩
  · rw [State.tally, hlog, hhandlers]
    rfl
  · rw [hhandlers]
    exact hs (hclosed ▸ hu)
  · unfold State.connected
    rw [hhandlers, hconn]
    exact hs

theorem keeps_setConn (s : State) (k : ConnId) (c : Under) : Keeps s (s.setConn k c) :=
  .of_eq rfl rfl rfl rfl rfl

theorem keeps_setReadDeadline (s : State) (t : Option Time) : Keeps s (setReadDeadline s t) :=
  .of_eq (by simp) (by simp) (by simp) (by simp) (by simp)

theorem keeps_closeConn (s : State) (k : ConnId) (err : Option Err) :
    Keeps s (closeConn s k err) := by
  rcases closeConn_cases s k err with h | ⟨c, h⟩
  · rw [h]
    exact .refl s
  · rw [h]
    exact keeps_setConn s k c

theorem keeps_answer {head : ResHandler} {rest : List ResHandler} {call : Call}
    (hhandlers : s.handlers = head :: rest) (hcall : call.request = head.h) :
    Keeps s { s with log := s.log ++ [call], handlers := rest } := by
  refine ⟨fun r => ?_, rfl, fun hs hu => ?_, fun hs _ => hs ?_⟩
  · simp only [State.tally, hhandlers, map_append, map_cons, map_nil,
      count_append, count_cons, count_nil, hcall]
    omega
  · have hnil := hs hu
    rw [hhandlers] at hnil
    cases hnil
  · rw [hhandlers]
    exact cons_ne_nil _ _

theorem closeWithErrorWithoutLock_keeps (s : State) (cause : Cause) (err : Option Err) :
    Keeps s (closeWithErrorWithoutLock s cause err) ∧
      (closeWithErrorWithoutLock s cause err).handlers = [] := by
  let failed : State :=
    { s with log := s.log ++ failures s cause (err.getD .eof), handlers := [] }
  have hfailed : Keeps s failed := by
    refine ⟨fun r => ?_, rfl, fun _ _ => rfl, fun _ h => absurd rfl h⟩
    have hcalls : (failures s cause (err.getD .eof)).map Call.request =
        s.handlers.map ResHandler.h := by
      rw [failures, map_map]
      rfl
    simp only [State.tally, failed, map_append, count_append, hcalls, map_nil, count_nil]
    omega
  unfold closeWithErrorWithoutLock
  dsimp only
  split
  · exact ⟨hfailed, rfl⟩
  · next k _ =>
    have hclosed : (closeConn failed k none).handlers = [] := by
      rcases closeConn_cases failed k none with h | ⟨c, h⟩
      · rw [h]
      · rw [h]
        rfl
    have hkeeps := hfailed.trans (keeps_closeConn failed k none)
    refine ⟨⟨hkeeps.tally, hkeeps.requests, fun _ _ => hclosed, fun _ h => absurd hclosed h⟩,
      hclosed⟩

theorem closeWithError_keeps (s : State) (cause : Cause) (err : Option Err) :
    Keeps s (closeWithError s cause err) := by
  unfold closeWithError
  split
  · exact .refl s
  · obtain ⟨hkeeps, hnil⟩ := closeWithErrorWithoutLock_keeps { s with closed := true } cause err
    exact ⟨hkeeps.tally, hkeeps.requests, fun _ _ => hnil, fun _ h => absurd hnil h⟩

theorem onResponse_keeps (s : State) (k : ConnId) (res : Response) (now : Time) :
    Keeps s (onResponse o s k res now) := by
  unfold onResponse
  split
  · next head rest hclosed hhandlers =>
    have hanswer : ∀ call : Call, call.request = head.h →
        Keeps s { s with log := s.log ++ [call], handlers := rest } :=
      fun call hcall => keeps_answer hhandlers hcall
    dsimp only
    split
    · split
      · split
        · exact (hanswer _ rfl).trans (closeWithErrorWithoutLock_keeps _ _ _).1
        · exact hanswer _ rfl
      · exact (hanswer _ rfl).trans (keeps_setReadDeadline _ _)
    · exact (hanswer _ rfl).trans (keeps_setReadDeadline _ _)
  · exact .refl s

theorem reset_keeps (hs : s.closed = true → s.handlers = []) : Keeps s (reset s) := by
  unfold reset
  split
  · next hclosed =>
    refine ⟨fun r => ?_, rfl, nofun, fun _ h => absurd rfl h⟩
    rw [State.tally, State.tally, hs hclosed]
  · exact .refl s

/-! ## `Do` -/

theorem sendRequest_keeps (s : State) (r : Request) (write : Option Err)
    (hconn : s.conn.isSome = true) :
    Keeps s (sendRequest s r write) ∧ (sendRequest s r write).connected := by
  unfold sendRequest
  split
  · next hnone =>
    rw [hnone] at hconn
    cases hconn
  · next k _ =>
    let sent : State := { s with written := s.written ++ [(r, k)] }
    have hsent : Keeps s sent := .of_eq rfl rfl rfl rfl rfl
    split
    · exact ⟨hsent, fun _ => hconn⟩
    · next e =>
      obtain ⟨hkeeps, hnil⟩ := closeWithErrorWithoutLock_keeps sent .own (some e)
      exact ⟨hsent.trans hkeeps, fun h => absurd hnil h⟩

theorem dialAndSend_keeps (s : State) (r : Request) (scheme : Scheme) (env : DoEnv) :
    Keeps s (dialAndSend o s r scheme env) ∧ (dialAndSend o s r scheme env).connected := by
  have hfails : ∀ (s : State) err, Keeps s (closeWithErrorWithoutLock s .own err) ∧
      (closeWithErrorWithoutLock s .own err).connected := by
    intro s err
    obtain ⟨hkeeps, hnil⟩ := closeWithErrorWithoutLock_keeps s .own err
    exact ⟨hkeeps, fun h => absurd hnil h⟩
  have hconnect : ∀ netConn, Keeps s (connect s netConn) := fun netConn =>
    ⟨fun _ => rfl, rfl, id, fun _ _ => rfl⟩
  unfold dialAndSend
  split
  · exact hfails _ _
  · split
    · exact hfails _ _
    · dsimp only
      split
      · obtain ⟨hkeeps, hconn⟩ := hfails (connect s _) _
        exact ⟨(hconnect _).trans hkeeps, hconn⟩
      · obtain ⟨hkeeps, hconn⟩ := sendRequest_keeps (connect s _) r env.write rfl
        exact ⟨(hconnect _).trans hkeeps, hconn⟩

/-- Every request accepted so far has been answered once or waits once, and nobody waits behind a
close. -/
structure Answered (s : State) : Prop where
  tally : ∀ r, s.tally r = if r < s.requests then 1 else 0
  closed : s.closed = true → s.handlers = []
  connected : s.connected

theorem Answered.keeps (h : Answered s) (hu : Keeps s u) : Answered u where
  tally := fun r => by rw [hu.tally, hu.requests, h.tally]
  closed := hu.closed h.closed
  connected := hu.connected h.connected

theorem tally_new {r : Nat} (h : s.tally r = if r < s.requests then 1 else 0) :
    s.tally r + [s.requests].count r = if r < s.requests + 1 then 1 else 0 := by
  rw [h, count_singleton]
  by_cases hr : s.requests = r
  · rw [beq_iff_eq.2 hr, if_pos rfl, if_neg (by omega : ¬ r < s.requests), if_pos (by omega)]
  · have hlt : r < s.requests + 1 ↔ r < s.requests := by omega
    rw [beq_false_of_ne hr]
    simp only [hlt, Bool.false_eq_true, if_false, Nat.add_zero]

theorem Do_answered (h : Answered s) (scheme : Scheme) (env : DoEnv) :
    Answered (Do o s scheme env) := by
  unfold Do
  dsimp only
  split
  · next hclosed =>
    refine ⟨fun r => ?_, h.closed, h.connected⟩
    rw [← tally_new (h.tally r)]
    simp only [State.tally, map_append, map_cons, map_nil, count_append]
    omega
  · next hopen =>
    let handler : ResHandler := { c := s.conn, t := env.sent, h := s.requests }
    let queued : State :=
      { s with requests := s.requests + 1, handlers := s.handlers ++ [handler] }
    have htally : ∀ r, queued.tally r = if r < queued.requests then 1 else 0 := by
      intro r
      rw [← tally_new (h.tally r)]
      simp only [State.tally, queued, handler, map_append, map_cons, map_nil, count_append]
      omega
    have hclosed : queued.closed = true → queued.handlers = [] := fun hc => absurd hc hopen
    -- the new request waits without a connection only within the call
    have hrest : ∀ u, Keeps queued u ∧ u.connected → Answered u := by
      rintro u ⟨hu, hconn⟩
      exact ⟨fun r => by rw [hu.tally, hu.requests, htally], hu.closed hclosed, hconn⟩
    split
    · next hsome =>
      split
      · obtain ⟨hkeeps, hconn⟩ :=
          sendRequest_keeps (setReadDeadline queued (some (env.started + o.timeout))) s.requests
            env.write (by rwa [conn_setReadDeadline])
        exact hrest _ ⟨(keeps_setReadDeadline queued _).trans hkeeps, hconn⟩
      · exact hrest _ (sendRequest_keeps queued s.requests env.write hsome)
    · exact hrest _ (dialAndSend_keeps queued s.requests scheme env)

/-! ## Runs -/

theorem init_answered : Answered init where
  tally := fun _ => rfl
  closed := nofun
  connected := fun h => absurd rfl h

theorem step_answered (h : Answered s) {e : Event} (hstep : step o s e = some u) : Answered u := by
  cases e with
  | Do scheme env =>
    cases hstep
    exact Do_answered h scheme env
  | reset =>
    cases hstep
    exact h.keeps (reset_keeps h.closed)
  | closeWithError err =>
    cases hstep
    exact h.keeps (closeWithError_keeps s .own err)
  | onComplete k res now =>
    rw [step] at hstep
    split at hstep
    · cases hstep
      unfold onComplete
      dsimp only
      split
      · exact h.keeps (onResponse_keeps s k res now)
      · split
        · exact h
        · exact h.keeps (keeps_setConn s k _)
    · cases hstep
  | connClosed k err =>
    rw [step] at hstep
    split at hstep
    · cases hstep
      exact h.keeps (keeps_closeConn s k err)
    · cases hstep
  | runJob k now =>
    rw [step, Option.map_eq_some_iff] at hstep
    obtain ⟨job, -, rfl⟩ := hstep
    have hpop : Keeps s (popJob s k) := keeps_setConn s k _
    cases job with
    | response res => exact h.keeps (hpop.trans (onResponse_keeps _ k res now))
    | closeProcessor err =>
      exact h.keeps
        ((hpop.trans (keeps_setConn _ k _)).trans (closeWithError_keeps _ (.notice k) err))
    | closeParser err => exact h.keeps (hpop.trans (closeWithError_keeps _ (.notice k) err))

theorem actStep_answered (h : Answered s) {a : Act} (hstep : actStep o s a = some u) :
    Answered u := by
  cases a with
  | step e => exact step_answered h hstep
  | onResponse k res now =>
    cases hstep
    exact h.keeps (onResponse_keeps s k res now)
  | closeWithError cause err =>
    cases hstep
    exact h.keeps (closeWithError_keeps s cause err)

/-- Whatever happens to a `ClientConn`, no handler is called twice, every handler passed to `Do` has
been called or waits, where a handler waits there is a connection, and when the `ClientConn` is
closed all handlers have been called. -/
theorem answered_exactly_once (o : Options) (s : State)
    (h : Reaches (actStep o) (fun _ _ => True) init s) :
    (∀ r, (s.log.map Call.request).count r ≤ 1) ∧
      (∀ r < s.requests, r ∈ s.log.map Call.request ∨ r ∈ s.handlers.map ResHandler.h) ∧
      (s.handlers ≠ [] → s.conn.isSome = true) ∧
      (s.closed = true → ∀ r < s.requests, (s.log.map Call.request).count r = 1) := by
  have hinv : Answered s :=
    h.invariant init_answered fun _ _ _ ht _ hstep => actStep_answered ht hstep
  refine ⟨fun r => ?_, fun r hr => ?_, hinv.connected, fun hclosed r hr => ?_⟩
  · have htally := hinv.tally r
    unfold State.tally at htally
    split at htally <;> omega
  · have htally := hinv.tally r
    rw [if_pos hr, State.tally] at htally
    by_cases hlog : r ∈ s.log.map Call.request
    · exact .inl hlog
    · rw [count_eq_zero_of_not_mem hlog] at htally
      exact .inr (count_pos_iff.1 (by omega))
  · have htally := hinv.tally r
    rw [if_pos hr, State.tally, hinv.closed hclosed] at htally
    exact htally

/-- A request that is answered, one whose write fails, one that is cut off by a close, and one
behind it. -/
def closingRun : List Act :=
  [.step (.Do .http smooth), .onResponse 0 okResponse 0,
    .step (.Do .http { smooth with write := some (.other []) }), .step (.Do .http smooth),
    .closeWithError .own none, .step (.Do .http smooth)]

theorem answered_exactly_once_closing :
    ∃ s, closingRun.foldlM (guarded (actStep plainOptions) fun _ _ => true) init = some s ∧
      s.log.map Call.request = [0, 1, 2, 3] ∧ s.closed = true ∧
      ∀ r < s.requests, (s.log.map Call.request).count r = 1 := by
  obtain ⟨s, hrun, hlog, hclosed⟩ :
      ∃ s, closingRun.foldlM (guarded (actStep plainOptions) fun _ _ => true) init = some s ∧
        s.log.map Call.request = [0, 1, 2, 3] ∧ s.closed = true := ⟨_, rfl, rfl, rfl⟩
  have hreach : Reaches (actStep plainOptions) (fun _ _ => True) init s :=
    (Reaches.of_foldlM hrun).mono fun _ _ _ => trivial
  obtain ⟨-, -, -, hanswered⟩ := answered_exactly_once plainOptions s hreach
  exact ⟨s, hrun, hlog, hclosed, hanswered hclosed⟩

end Nbio.Client
