import Nbio.Client.Conn
import Nbio.Lib.Machine

/-!
# Responses and close notifications of a client connection

A response of connection `k` should go to a request that was written on `k`, and the close
notification of `k` should not fail requests written on a later connection (`State.Own`).  The jobs
of `k` are bound to the `ClientConn`, not to its connection at the time, so that this depends on
when they run.
-/

namespace Nbio.Client

open Nbio.Lib List Option

variable {o : Options} {s u : State} {k : ConnId}

/-! ## The property -/

/-- A call on behalf of a connection is about a request of that connection; a close notification
may also be about a request of an earlier one. -/
def Call.Own (written : List (Request × ConnId)) (c : Call) : Prop :=
  match c.cause with
  | .response k => (c.request, k) ∈ written
  | .notice k => ∀ p ∈ written, p.1 = c.request → p.2 ≤ k
  | .own => True

def State.Own (s : State) : Prop := ∀ c ∈ s.log, c.Own s.written

/-- Connection `k` may speak: it is the present one, or nobody waits for it. -/
def State.current (s : State) (k : ConnId) : Bool :=
  s.closed || s.handlers.isEmpty || s.conn == some k

/-- A connection speaks only while it may. -/
def inTime (s : State) : Event → Bool
  | .onComplete k res _ => res.statusCode != 101 || s.current k
  | .runJob k _ => s.current k
  | _ => true

theorem own_append {calls : List Call} (hlog : u.log = s.log ++ calls)
    (hwritten : u.written = s.written) (hs : s.Own) :
    u.Own ↔ ∀ c ∈ calls, c.Own s.written := by
  unfold State.Own
  rw [hlog, hwritten]
  constructor
  · intro h c hc
    exact h c (mem_append_right _ hc)
  · intro h c hc
    rcases mem_append.1 hc with hc | hc
    · exact hs c hc
    · exact h c hc

theorem Call.own_of_own {written : List (Request × ConnId)} {c : Call} (h : c.cause = .own) :
    c.Own written := by
  unfold Call.Own
  rw [h]
  trivial

/-! ## The invariant -/

/-- What holds of the records, also while a request is being sent. -/
structure Base (s : State) : Prop where
  once : ∀ p ∈ s.written, ∀ q ∈ s.written, p.1 = q.1 → p.2 = q.2
  written_lt : ∀ p ∈ s.written, p.1 < s.requests
  log_lt : ∀ c ∈ s.log, c.request < s.requests
  handlers_lt : ∀ h ∈ s.handlers, h.h < s.requests
  latest : ∀ k, s.conn = some k → s.dialled = k + 1
  jobs : ∀ k, s.dialled ≤ k → (s.conns k).jobList = []

/-- Who waits has written a request on the present connection. -/
structure Inv (s : State) : Prop extends Base s where
  waiting : ∀ h ∈ s.handlers, ∃ k, s.conn = some k ∧ (h.h, k) ∈ s.written

theorem init_inv : Inv init where
  once := by intro p hp; cases hp
  written_lt := by intro p hp; cases hp
  log_lt := by intro c hc; cases hc
  handlers_lt := by intro h hh; cases hh
  latest := by intro k hk; cases hk
  jobs := by intro k _; rfl
  waiting := by intro h hh; cases hh

theorem Base.setConn (h : Base s) (hk : k < s.dialled) (c : Under) : Base (s.setConn k c) where
  once := h.once
  written_lt := h.written_lt
  log_lt := h.log_lt
  handlers_lt := h.handlers_lt
  latest := h.latest
  jobs := by
    intro j hj
    have hne : j ≠ k := fun heq => absurd hk (Nat.not_lt.2 (heq ▸ hj))
    show (Function.update s.conns k c j).jobList = []
    rw [Function.update_of_ne hne]
    exact h.jobs j hj

theorem Inv.setConn (h : Inv s) (hk : k < s.dialled) (c : Under) : Inv (s.setConn k c) :=
  { h.toBase.setConn hk c with waiting := h.waiting }

theorem closeConn_cases (s : State) (k : ConnId) (err : Option Err) :
    closeConn s k err = s ∨ ∃ c, closeConn s k err = s.setConn k c := by
  unfold closeConn
  dsimp only
  split
  · exact .inl rfl
  · exact .inr ⟨_, rfl⟩

theorem setReadDeadline_cases (s : State) (t : Option Time) :
    setReadDeadline s t = s ∨ ∃ k c, s.conn = some k ∧ setReadDeadline s t = s.setConn k c := by
  unfold setReadDeadline
  split
  · exact .inl rfl
  · next k hk =>
    split
    · exact .inl rfl
    · exact .inr ⟨k, _, hk, rfl⟩

theorem Base.setReadDeadline (h : Base s) (t : Option Time) : Base (setReadDeadline s t) := by
  rcases setReadDeadline_cases s t with heq | ⟨k, c, hk, heq⟩
  · rw [heq]
    exact h
  · rw [heq]
    exact h.setConn (h.latest k hk ▸ Nat.lt_succ_self k) c

@[simp] theorem conn_setReadDeadline (s : State) (t : Option Time) :
    (setReadDeadline s t).conn = s.conn := by
  rcases setReadDeadline_cases s t with heq | ⟨k, c, -, heq⟩ <;> rw [heq]
  rfl

@[simp] theorem handlers_setReadDeadline (s : State) (t : Option Time) :
    (setReadDeadline s t).handlers = s.handlers := by
  rcases setReadDeadline_cases s t with heq | ⟨k, c, -, heq⟩ <;> rw [heq]
  rfl

@[simp] theorem records_setReadDeadline (s : State) (t : Option Time) :
    (setReadDeadline s t).log = s.log ∧ (setReadDeadline s t).written = s.written ∧
      (setReadDeadline s t).requests = s.requests ∧
      (setReadDeadline s t).closed = s.closed := by
  rcases setReadDeadline_cases s t with heq | ⟨k, c, -, heq⟩ <;> rw [heq]
  · exact ⟨rfl, rfl, rfl, rfl⟩
  · exact ⟨rfl, rfl, rfl, rfl⟩

theorem closeWithErrorWithoutLock_eq (s : State) (cause : Cause) (err : Option Err) :
    (closeWithErrorWithoutLock s cause err).log = s.log ++ failures s cause (err.getD .eof) ∧
      (closeWithErrorWithoutLock s cause err).written = s.written := by
  unfold closeWithErrorWithoutLock
  dsimp only
  split
  · exact ⟨rfl, rfl⟩
  · next k _ =>
    rcases closeConn_cases
        { s with log := s.log ++ failures s cause (err.getD .eof), handlers := [] }
      k none with h | ⟨c, h⟩
    · rw [h]
      exact ⟨rfl, rfl⟩
    · rw [h]
      exact ⟨rfl, rfl⟩

theorem mem_failures {cause : Cause} {err : Err} {c : Call} (hc : c ∈ failures s cause err) :
    c.cause = cause ∧ ∃ h ∈ s.handlers, c.request = h.h := by
  obtain ⟨h, hh, rfl⟩ := mem_map.1 hc
  exact ⟨rfl, h, hh, rfl⟩

theorem failures_own (s : State) (err : Err) {written : List (Request × ConnId)} :
    ∀ c ∈ failures s .own err, c.Own written :=
  fun _ hc => Call.own_of_own (mem_failures hc).1

theorem closeWithErrorWithoutLock_inv (h : Base s) (cause : Cause) (err : Option Err) :
    Inv (closeWithErrorWithoutLock s cause err) := by
  let failed : State :=
    { s with log := s.log ++ failures s cause (err.getD .eof), handlers := [] }
  have hfailed : Base failed :=
    { h with
      log_lt := by
        intro c hc
        rcases mem_append.1 hc with hc | hc
        · exact h.log_lt c hc
        · obtain ⟨-, r, hr, heq⟩ := mem_failures hc
          exact heq ▸ h.handlers_lt r hr
      handlers_lt := fun r hr => absurd hr not_mem_nil }
  have hnobody : failed.handlers = [] := rfl
  unfold closeWithErrorWithoutLock
  dsimp only
  split
  · exact { hfailed with waiting := fun r hr => absurd hr not_mem_nil }
  · next k hk =>
    have hlt : k < failed.dialled := by
      rw [h.latest k hk]
      exact Nat.lt_succ_self k
    have hclosed : Base (closeConn failed k none) ∧ (closeConn failed k none).handlers = [] := by
      rcases closeConn_cases failed k none with heq | ⟨c, heq⟩
      · rw [heq]
        exact ⟨hfailed, hnobody⟩
      · rw [heq]
        exact ⟨hfailed.setConn hlt c, hnobody⟩
    exact
      { hclosed.1 with
        latest := fun j hj => by cases hj
        waiting := fun r hr => by
          rw [hclosed.2] at hr
          cases hr }

def closeCalls (s : State) (cause : Cause) (err : Option Err) : List Call :=
  if s.closed then [] else failures s cause (err.getD .eof)

theorem closeWithError_eq (s : State) (cause : Cause) (err : Option Err) :
    (closeWithError s cause err).log = s.log ++ closeCalls s cause err ∧
      (closeWithError s cause err).written = s.written := by
  unfold closeWithError closeCalls
  split
  · exact ⟨(append_nil _).symm, rfl⟩
  · exact closeWithErrorWithoutLock_eq { s with closed := true } cause err

theorem closeWithError_inv (h : Inv s) (cause : Cause) (err : Option Err) :
    Inv (closeWithError s cause err) := by
  unfold closeWithError
  split
  · exact h
  · have hs : Base { s with closed := true } :=
      ⟨h.once, h.written_lt, h.log_lt, h.handlers_lt, h.latest, h.jobs⟩
    exact closeWithErrorWithoutLock_inv hs cause err

/-! ## Responses -/

def answered (s : State) (k : ConnId) (res : Response) : List Call :=
  if s.closed then []
  else s.handlers.head?.toList.map fun h =>
    { request := h.h, res := some res, conn := s.conn, err := none, cause := .response k }

theorem Inv.answer {head : ResHandler} {rest : List ResHandler} {call : Call} (h : Inv s)
    (hhandlers : s.handlers = head :: rest) (hcall : call.request = head.h) :
    Inv { s with log := s.log ++ [call], handlers := rest } := by
  have hmem : ∀ r ∈ rest, r ∈ s.handlers := fun r hr => hhandlers ▸ mem_cons_of_mem _ hr
  exact
    { h with
      log_lt := by
        intro c hc
        rcases mem_append.1 hc with hc | hc
        · exact h.log_lt c hc
        · rw [mem_singleton.1 hc, hcall]
          exact h.handlers_lt head (hhandlers ▸ mem_cons_self)
      handlers_lt := fun r hr => h.handlers_lt r (hmem r hr)
      waiting := fun r hr => h.waiting r (hmem r hr) }

theorem Inv.setReadDeadline (h : Inv s) (t : Option Time) : Inv (setReadDeadline s t) :=
  { h.toBase.setReadDeadline t with
    waiting := by simpa using h.waiting }

theorem onResponse_spec (h : Inv s) (k : ConnId) (res : Response) (now : Time) :
    Inv (onResponse o s k res now) ∧ (onResponse o s k res now).written = s.written ∧
      ∃ more, (∀ c ∈ more, c.cause = .own) ∧
        (onResponse o s k res now).log = s.log ++ (answered s k res ++ more) := by
  have hnone : ∀ c ∈ ([] : List Call), c.cause = .own := fun c hc => absurd hc not_mem_nil
  unfold onResponse
  split
  · next head rest hclosed hhandlers =>
    let call : Call :=
      { request := head.h, res := some res, conn := s.conn, err := none, cause := .response k }
    have hcalls : answered s k res = [call] := by
      rw [answered, hclosed, hhandlers]
      rfl
    have hlog : s.log ++ [call] = s.log ++ (answered s k res ++ []) := by
      rw [hcalls, append_nil]
    have hanswer : Inv { s with log := s.log ++ [call], handlers := rest } :=
      h.answer hhandlers rfl
    have hset := records_setReadDeadline { s with log := s.log ++ [call], handlers := rest }
    dsimp only
    split
    · next next tail =>
      split
      · split
        · obtain ⟨hfailed, hwritten⟩ := closeWithErrorWithoutLock_eq
            { s with log := s.log ++ [call], handlers := next :: tail } .own (some .clientTimeout)
          rw [hcalls]
          refine ⟨closeWithErrorWithoutLock_inv hanswer.toBase _ _, hwritten, _, ?_,
            hfailed.trans (append_assoc ..)⟩
          intro c hc
          exact (mem_failures hc).1
        · exact ⟨hanswer, rfl, [], hnone, hlog⟩
      · exact ⟨hanswer.setReadDeadline _, (hset _).2.1, [], hnone, (hset _).1.trans hlog⟩
    · exact ⟨hanswer.setReadDeadline _, (hset _).2.1, [], hnone, (hset _).1.trans hlog⟩
  · next hmatch =>
    have hcalls : answered s k res = [] := by
      unfold answered
      cases hclosed : s.closed with
      | true => rfl
      | false =>
        cases hhandlers : s.handlers with
        | nil => rfl
        | cons head rest => exact absurd hhandlers (hmatch head rest hclosed)
    refine ⟨h, rfl, [], hnone, ?_⟩
    rw [hcalls, append_nil, append_nil]

theorem answered_own_iff (h : Inv s) (k : ConnId) (res : Response) :
    (∀ c ∈ answered s k res, c.Own s.written) ↔ s.current k = true := by
  unfold answered State.current
  cases s.closed with
  | true => simp
  | false =>
    cases hhandlers : s.handlers with
    | nil => simp
    | cons head rest =>
      obtain ⟨k₀, hconn, hwritten⟩ := h.waiting head (hhandlers ▸ mem_cons_self)
      have hown : (head.h, k) ∈ s.written ↔ k₀ = k := by
        constructor
        · intro hk
          exact h.once _ hwritten _ hk rfl
        · rintro rfl
          exact hwritten
      simp [Call.Own, hconn, hown]

theorem closeCalls_own_iff (h : Inv s) (hk : k < s.dialled) (err : Option Err) :
    (∀ c ∈ closeCalls s (.notice k) err, c.Own s.written) ↔ s.current k = true := by
  unfold closeCalls State.current
  cases s.closed with
  | true => simp
  | false =>
    cases hhandlers : s.handlers with
    | nil => simp [failures, hhandlers]
    | cons head rest =>
      obtain ⟨k₀, hconn, hwritten⟩ := h.waiting head (hhandlers ▸ mem_cons_self)
      rw [h.latest k₀ hconn] at hk
      simp only [isEmpty_cons, Bool.false_or, hconn, beq_iff_eq, Option.some.injEq]
      constructor
      · intro hown
        have hle : k₀ ≤ k :=
          hown { request := head.h, res := none, conn := s.conn, err := some (err.getD .eof)
                 cause := .notice k }
            (mem_map.2 ⟨head, hhandlers ▸ mem_cons_self, rfl⟩) _ hwritten rfl
        exact Nat.le_antisymm hle (Nat.le_of_lt_succ hk)
      · rintro rfl c hc
        obtain ⟨hcause, r, hr, hrequest⟩ := mem_failures hc
        obtain ⟨k₁, hconn₁, hwritten₁⟩ := h.waiting r hr
        rw [Call.Own, hcause]
        intro p hp hpr
        have hpk : p.2 = k₁ := h.once p hp _ hwritten₁ (hpr.trans hrequest)
        rw [hpk, some.inj (hconn₁.symm.trans hconn)]

/-! ## Requests -/

theorem fail_spec (h : Base s) (hs : s.Own) (err : Option Err) :
    Inv (closeWithErrorWithoutLock s .own err) ∧ (closeWithErrorWithoutLock s .own err).Own := by
  obtain ⟨hlog, hwritten⟩ := closeWithErrorWithoutLock_eq s .own err
  exact ⟨closeWithErrorWithoutLock_inv h _ _,
    (own_append hlog hwritten hs).2 (failures_own s _)⟩

theorem sendRequest_spec {r : Request} {write : Option Err} (h : Base s) (hr : r < s.requests)
    (hnew : ∀ p ∈ s.written, p.1 ≠ r) (hunanswered : ∀ c ∈ s.log, c.request ≠ r)
    (hconn : s.conn = some k)
    (hwaiting : ∀ g ∈ s.handlers, g.h = r ∨ (g.h, k) ∈ s.written) (hs : s.Own) :
    Inv (sendRequest s r write) ∧ (sendRequest s r write).Own := by
  let sent : State := { s with written := s.written ++ [(r, k)] }
  have hsent : Inv sent :=
    { h with
      once := by
        intro p hp q hq hpq
        rcases mem_append.1 hp with hp | hp <;> rcases mem_append.1 hq with hq | hq
        · exact h.once p hp q hq hpq
        · exact absurd (hpq.trans (congrArg Prod.fst (mem_singleton.1 hq))) (hnew p hp)
        · exact absurd (hpq.symm.trans (congrArg Prod.fst (mem_singleton.1 hp))) (hnew q hq)
        · rw [mem_singleton.1 hp, mem_singleton.1 hq]
      written_lt := by
        intro p hp
        rcases mem_append.1 hp with hp | hp
        · exact h.written_lt p hp
        · rw [mem_singleton.1 hp]
          exact hr
      waiting := by
        intro g hg
        refine ⟨k, hconn, mem_append.2 ?_⟩
        rcases hwaiting g hg with heq | hmem
        · exact .inr (heq ▸ mem_singleton_self _)
        · exact .inl hmem }
  have hown : sent.Own := by
    intro c hc
    have hold := hs c hc
    unfold Call.Own at hold ⊢
    cases hcause : c.cause with
    | response j =>
      rw [hcause] at hold
      exact mem_append_left _ hold
    | notice j =>
      rw [hcause] at hold
      intro p hp hpc
      rcases mem_append.1 hp with hp | hp
      · exact hold p hp hpc
      · rw [mem_singleton.1 hp] at hpc
        exact absurd hpc.symm (hunanswered c hc)
    | own => trivial
  unfold sendRequest
  split
  · next hnone => cases hnone.symm.trans hconn
  · next j hj =>
    obtain rfl : j = k := some.inj (hj.symm.trans hconn)
    split
    · exact ⟨hsent, hown⟩
    · next e => exact fail_spec hsent.toBase hown (some e)

theorem Inv.handlers_nil (h : Inv s) (hconn : s.conn = none) : s.handlers = [] := by
  cases hhandlers : s.handlers with
  | nil => rfl
  | cons head rest =>
    obtain ⟨k, hk, -⟩ := h.waiting head (hhandlers ▸ mem_cons_self)
    cases hconn.symm.trans hk

theorem Inv.enqueue (h : Inv s) (c : Option ConnId) (t : Time) :
    Base { s with requests := s.requests + 1
                  handlers := s.handlers ++ [{ c := c, t := t, h := s.requests }] } :=
  { h.toBase with
    written_lt := fun p hp => Nat.lt_succ_of_lt (h.written_lt p hp)
    log_lt := fun c hc => Nat.lt_succ_of_lt (h.log_lt c hc)
    handlers_lt := by
      intro g hg
      rcases mem_append.1 hg with hg | hg
      · exact Nat.lt_succ_of_lt (h.handlers_lt g hg)
      · rw [mem_singleton.1 hg]
        exact Nat.lt_succ_self _ }

theorem Base.connect (h : Base s) (netConn : StdConn) : Base (connect s netConn) :=
  { h with
    latest := fun k hk => by rw [← some.inj hk]; rfl
    jobs := fun k hk => by
      have hne : k ≠ s.dialled := Nat.ne_of_gt hk
      change (Function.update s.conns s.dialled (NBConn netConn) k).jobList = []
      rw [Function.update_of_ne hne]
      exact h.jobs k (Nat.le_of_succ_le hk) }

theorem dialAndSend_spec {r : Request} {g : ResHandler} (h : Base s) (hr : r < s.requests)
    (hnew : ∀ p ∈ s.written, p.1 ≠ r) (hunanswered : ∀ c ∈ s.log, c.request ≠ r)
    (hhandlers : s.handlers = [g]) (hg : g.h = r) (hs : s.Own) (scheme : Scheme) (env : DoEnv) :
    Inv (dialAndSend o s r scheme env) ∧ (dialAndSend o s r scheme env).Own := by
  unfold dialAndSend
  split
  · exact fail_spec h hs _
  · split
    · exact fail_spec h hs _
    · have hconnect := h.connect (netDial o env)
      dsimp only
      split
      · exact fail_spec hconnect hs _
      · refine sendRequest_spec hconnect hr hnew hunanswered rfl ?_ hs
        intro f hf
        change f ∈ s.handlers at hf
        rw [hhandlers, mem_singleton] at hf
        exact .inl (hf ▸ hg)

theorem Do_spec (h : Inv s) (hs : s.Own) (scheme : Scheme) (env : DoEnv) :
    Inv (Do o s scheme env) ∧ (Do o s scheme env).Own := by
  have hnew : ∀ p ∈ s.written, p.1 ≠ s.requests := fun p hp => Nat.ne_of_lt (h.written_lt p hp)
  have hunanswered : ∀ c ∈ s.log, c.request ≠ s.requests := fun c hc =>
    Nat.ne_of_lt (h.log_lt c hc)
  unfold Do
  dsimp only
  split
  · refine ⟨?_, Iff.mpr (own_append rfl rfl hs) fun c hc => ?_⟩
    · exact
        { h with
          written_lt := fun p hp => Nat.lt_succ_of_lt (h.written_lt p hp)
          log_lt := by
            intro c hc
            rcases mem_append.1 hc with hc | hc
            · exact Nat.lt_succ_of_lt (h.log_lt c hc)
            · rw [mem_singleton.1 hc]
              exact Nat.lt_succ_self _
          handlers_lt := fun g hg => Nat.lt_succ_of_lt (h.handlers_lt g hg) }
    · rw [mem_singleton.1 hc]
      exact Call.own_of_own rfl
  · have hbase := h.enqueue s.conn env.sent
    split
    · next hsome =>
      obtain ⟨k, hk⟩ := isSome_iff_exists.1 hsome
      have hwaiting : ∀ g ∈ s.handlers ++ [⟨s.conn, env.sent, s.requests⟩],
          g.h = s.requests ∨ (g.h, k) ∈ s.written := by
        intro g hg
        rcases mem_append.1 hg with hg | hg
        · obtain ⟨k', hk', hmem⟩ := h.waiting g hg
          obtain rfl := some.inj (hk'.symm.trans hk)
          exact .inr hmem
        · exact .inl (congrArg ResHandler.h (mem_singleton.1 hg))
      split
      · exact sendRequest_spec (hbase.setReadDeadline _) (by simp) (by simpa using hnew)
          (by simpa using hunanswered) (by simpa using hk) (by simpa using hwaiting)
          (by simpa [State.Own] using hs)
      · exact sendRequest_spec hbase (Nat.lt_succ_self _) hnew hunanswered hk hwaiting hs
    · next hnone =>
      let g : ResHandler := { c := s.conn, t := env.sent, h := s.requests }
      have hone : s.handlers ++ [g] = [g] := by
        rw [h.handlers_nil (not_isSome_iff_eq_none.1 hnone)]
        rfl
      exact dialAndSend_spec hbase (Nat.lt_succ_self _) hnew hunanswered hone rfl hs scheme env

/-! ## Runs -/

theorem reset_spec (h : Inv s) (hs : s.Own) : Inv (reset s) ∧ (reset s).Own := by
  unfold reset
  split
  · refine ⟨?_, hs⟩
    exact
      { h with
        handlers_lt := fun g hg => absurd hg not_mem_nil
        latest := fun k hk => by cases hk
        waiting := fun g hg => absurd hg not_mem_nil }
  · exact ⟨h, hs⟩

theorem closeWithError_own (hs : s.Own) (err : Option Err) : (closeWithError s .own err).Own := by
  obtain ⟨hlog, hwritten⟩ := closeWithError_eq s .own err
  rw [own_append hlog hwritten hs]
  intro c hc
  unfold closeCalls at hc
  split at hc
  · cases hc
  · exact failures_own s _ c hc

theorem onResponse_own_iff (h : Inv s) (hs : s.Own) (k : ConnId) (res : Response) (now : Time) :
    (onResponse o s k res now).Own ↔ s.current k = true := by
  obtain ⟨-, hwritten, more, hmore, hlog⟩ := onResponse_spec h k res now
  rw [own_append hlog hwritten hs, ← answered_own_iff h k res]
  constructor
  · intro hall c hc
    exact hall c (mem_append_left _ hc)
  · intro hall c hc
    rcases mem_append.1 hc with hc | hc
    · exact hall c hc
    · exact Call.own_of_own (hmore c hc)

theorem notice_own_iff (h : Inv s) (hs : s.Own) (hk : k < s.dialled) (err : Option Err) :
    (closeWithError s (.notice k) err).Own ↔ s.current k = true := by
  obtain ⟨hlog, hwritten⟩ := closeWithError_eq s (.notice k) err
  rw [own_append hlog hwritten hs, closeCalls_own_iff h hk]

theorem Job.run_spec (h : Inv s) (hs : s.Own) (hk : k < s.dialled) (job : Job) (now : Time) :
    Inv (job.run o s k now) ∧ ((job.run o s k now).Own ↔ s.current k = true) := by
  cases job with
  | response res => exact ⟨(onResponse_spec h k res now).1, onResponse_own_iff h hs k res now⟩
  | closeProcessor err =>
    have hclean := h.setConn hk { s.conns k with parserClosed := true }
    exact ⟨closeWithError_inv hclean _ _, notice_own_iff hclean hs hk err⟩
  | closeParser err => exact ⟨closeWithError_inv h _ _, notice_own_iff h hs hk err⟩

/-- Every step keeps the invariant, and those steps keep to the own connection in which a
connection speaks only while it may. -/
theorem step_spec (h : Inv s) (hs : s.Own) {e : Event} (hstep : step o s e = some u) :
    Inv u ∧ (u.Own ↔ inTime s e = true) := by
  cases e with
  | Do scheme env =>
    cases hstep
    obtain ⟨hinv, hown⟩ := Do_spec h hs scheme env
    exact ⟨hinv, iff_of_true hown rfl⟩
  | reset =>
    cases hstep
    obtain ⟨hinv, hown⟩ := reset_spec h hs
    exact ⟨hinv, iff_of_true hown rfl⟩
  | closeWithError err =>
    cases hstep
    exact ⟨closeWithError_inv h _ _, iff_of_true (closeWithError_own hs err) rfl⟩
  | onComplete k res now =>
    obtain ⟨hlive, ⟨⟩⟩ := ite_none_right_eq_some.1 hstep
    unfold onComplete inTime
    dsimp only
    by_cases hswitch : res.statusCode = 101
    · rw [hswitch]
      exact ⟨(onResponse_spec h k res now).1, onResponse_own_iff h hs k res now⟩
    · rw [if_neg hswitch, (bne_iff_ne).2 hswitch]
      split
      · exact ⟨h, iff_of_true hs rfl⟩
      · exact ⟨h.setConn hlive.1 _, iff_of_true hs rfl⟩
  | connClosed k err =>
    obtain ⟨hlt, ⟨⟩⟩ := ite_none_right_eq_some.1 hstep
    rcases closeConn_cases s k err with heq | ⟨c, heq⟩
    · rw [heq]
      exact ⟨h, iff_of_true hs rfl⟩
    · rw [heq]
      exact ⟨h.setConn hlt c, iff_of_true hs rfl⟩
  | runJob k now =>
    rw [step, map_eq_some_iff] at hstep
    obtain ⟨job, hjob, rfl⟩ := hstep
    have hlt : k < s.dialled := by
      refine Nat.lt_of_not_le fun hle => ?_
      rw [h.jobs k hle] at hjob
      cases hjob
    exact Job.run_spec (h.setConn hlt _) hs hlt job now

/-- As long as connections speak only while they may, every response goes to a request of its own
connection and no close notification reaches a request of a later one; and the first step in which
a connection speaks otherwise breaks this. -/
theorem own_connection (o : Options) (s : State)
    (h : Reaches (step o) (fun s e => inTime s e = true) init s) :
    s.Own ∧ ∀ e u, step o s e = some u → (u.Own ↔ inTime s e = true) := by
  have hinv : Inv s ∧ s.Own := by
    refine h.invariant (P := fun s => Inv s ∧ s.Own) ⟨init_inv, ?_⟩ ?_
    · intro c hc
      cases hc
    · intro t e u ht hguard hstep
      obtain ⟨hu, hown⟩ := step_spec ht.1 ht.2 hstep
      exact ⟨hu, hown.2 hguard⟩
  exact ⟨hinv.2, fun e u hstep => (step_spec hinv.1 hinv.2 hstep).2⟩

def smooth : DoEnv :=
  { sent := 0, started := 0, dialling := 0, proxy := none, dial := none, setup := none
    addConn := none, write := none }

def plainOptions : Options := { timeout := 0, idleConnTimeout := 0 }

def okResponse : Response := { statusCode := 200, body := [] }

def orderlyRun : List Event :=
  [.Do .http smooth, .onComplete 0 okResponse 0, .runJob 0 0, .connClosed 0 none, .runJob 0 0,
    .runJob 0 0]

theorem own_connection_orderly :
    ∃ s, orderlyRun.foldlM (guarded (step plainOptions) inTime) init = some s ∧
      s.log.map Call.cause = [.response 0] ∧
      s.Own ∧ ∀ e u, step plainOptions s e = some u → (u.Own ↔ inTime s e = true) :=
  have hrun : ∃ s, orderlyRun.foldlM (guarded (step plainOptions) inTime) init = some s ∧
      s.log.map Call.cause = [.response 0] := ⟨_, rfl, rfl⟩
  hrun.imp fun s h => ⟨h.1, h.2, own_connection plainOptions s (Reaches.of_foldlM h.1)⟩

/-- Connection 0 is dropped with its response to request 0 queued; requests 2 and 3 are written on
connection 1 before all jobs of connection 0 have run. -/
def staleRun : List Event :=
  [.Do .http smooth, .onComplete 0 okResponse 0,
    .Do .http { smooth with write := some (.other []) }, .Do .http smooth, .runJob 0 0,
    .Do .http smooth, .runJob 0 0]

/-- Request 2 gets the response of connection 0, and request 3 is failed by its close notification,
although both were written on connection 1. -/
theorem stale_jobs_reach_later_requests :
    ∃ s, staleRun.foldlM (step plainOptions) init = some s ∧
      s.written = [(0, 0), (1, 0), (2, 1), (3, 1)] ∧
      s.log.drop 2 =
        [{ request := 2, res := some okResponse, conn := some 1, err := none
           cause := .response 0 },
         { request := 3, res := none, conn := some 1, err := some .eof, cause := .notice 0 }] ∧
      ¬ s.Own := by
  refine ⟨_, rfl, rfl, rfl, fun hown => ?_⟩
  have hmem := hown { request := 2, res := some okResponse, conn := some 1, err := none
                      cause := .response 0 } (by decide)
  exact absurd hmem (show (2, 0) ∉ [(0, 0), (1, 0), (2, 1), (3, 1)] by decide)

end Nbio.Client
