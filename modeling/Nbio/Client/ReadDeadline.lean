import Nbio.Client.Answers

/-!
# The read deadline of a client connection

With a `Timeout`, the connection should be read until the oldest request that waits for its response
runs out of time, and without one for as long as it takes.  `Do` sets the deadline for a request
that finds nobody waiting on a connection that is there.  For a request that has to dial, it is set
on the connection that the dialer returns, which `NBConn` replaces.  A response passes the turn to
the next request: then `onResponse` only looks whether that one is late already, and without a
`Timeout` it sets the time at which it was sent.
-/

namespace Nbio.Client

open Nbio.Lib List Option

variable {o : Options} {s t u : State}

def State.readDeadline (s : State) : Option Time := s.conn.bind fun k => (s.conns k).rTimer

def State.live (s : State) : Prop := ∀ k ∈ s.conn, (s.conns k).closed = false

instance (s : State) : Decidable s.live := inferInstanceAs (Decidable (∀ k ∈ s.conn, _))

/-- A `ClientConn` and its requests: when each was sent, that is the time from which `Do` counts its
timeout, the last one that found nobody waiting, and whether that one had to dial. -/
structure Timed where
  state : State
  sentAt : Request → Time
  first : Request
  dialled : Bool

def Timed.record (x : Timed) (a : Act) (u : State) : Timed :=
  match a with
  | .step (.Do _ env) =>
    let sentAt := Function.update x.sentAt x.state.requests env.started
    if x.state.handlers = [] then
      { state := u, sentAt := sentAt, first := x.state.requests, dialled := x.state.conn.isNone }
    else { x with state := u, sentAt := sentAt }
  | _ => { x with state := u }

def timedStep (o : Options) (x : Timed) (a : Act) : Option Timed :=
  (actStep o x.state a).map (x.record a)

namespace Timed

def start : Timed := { state := init, sentAt := fun _ => 0, first := 0, dialled := false }

def due (o : Options) (t : Time) : Option Time :=
  if 0 < o.timeout then some (t + o.timeout) else none

/-- While requests wait, the read deadline is that of the oldest. -/
def Tracks (o : Options) (x : Timed) : Prop :=
  ∀ h ∈ x.state.handlers.head?, x.state.readDeadline = due o (x.sentAt h.h)

instance (o : Options) (x : Timed) : Decidable (x.Tracks o) :=
  inferInstanceAs (Decidable (∀ h ∈ x.state.handlers.head?, _))

/-- Whether the oldest request has its deadline.  With a `Timeout` the one that found nobody waiting
must not have dialled, and the oldest must have been sent when that one was; without one it must be
that one, and if it has not dialled there must be no idle timeout. -/
def onTime (o : Options) (x : Timed) : Bool :=
  match x.state.handlers with
  | [] => true
  | h :: _ =>
    if 0 < o.timeout then !x.dialled && x.sentAt h.h == x.sentAt x.first
    else h.h == x.first && (x.dialled || decide (o.idleConnTimeout ≤ 0))

variable {x : Timed}

theorem tracks_of_nil (h : x.state.handlers = []) : x.Tracks o := by
  intro g hg
  rw [h] at hg
  cases hg

theorem tracks_cons {g : ResHandler} {gs : List ResHandler} (h : x.state.handlers = g :: gs) :
    x.Tracks o ↔ x.state.readDeadline = due o (x.sentAt g.h) := by
  unfold Tracks
  rw [h]
  exact ⟨fun hall => hall g rfl, fun heq f hf => some.inj hf ▸ heq⟩

end Timed

/-! ## What the deadline is -/

/-- The deadline of a connection on which requests wait, the oldest being `h`. -/
structure Timed.Busy (o : Options) (x : Timed) (h : ResHandler) : Prop where
  timeout : 0 < o.timeout →
    x.state.readDeadline = if x.dialled then none else some (x.sentAt x.first + o.timeout)
  forever : ¬ 0 < o.timeout →
    (x.state.readDeadline = none ↔ h.h = x.first ∧ (x.dialled = true ∨ o.idleConnTimeout ≤ 0))

structure Held (o : Options) (x : Timed) : Prop where
  answered : Answered x.state
  idle : x.state.live → x.state.conn.isSome = true → x.state.handlers = [] →
    (x.state.readDeadline = none ↔ o.idleConnTimeout ≤ 0)
  busy : x.state.live → ∀ h ∈ x.state.handlers.head?, x.Busy o h
  later : ∀ h ∈ x.state.handlers.tail, h.h ≠ x.first
  known : x.state.handlers ≠ [] → x.first < x.state.requests

variable {x y : Timed}

theorem Held.tracks_iff (h : Held o x) (hlive : x.state.live) :
    x.Tracks o ↔ x.onTime o = true := by
  unfold Timed.onTime
  cases hhandlers : x.state.handlers with
  | nil => exact iff_of_true (Timed.tracks_of_nil hhandlers) rfl
  | cons g gs =>
    have hbusy := h.busy hlive g (by rw [hhandlers]; rfl)
    rw [Timed.tracks_cons hhandlers, Timed.due]
    by_cases htimeout : 0 < o.timeout
    · rw [hbusy.timeout htimeout]
      cases x.dialled with
      | true => simp [htimeout]
      | false =>
        simp only [htimeout, if_true, Bool.false_eq_true, if_false, Bool.not_false, Bool.true_and,
          beq_iff_eq, Option.some.injEq, add_left_inj]
        exact eq_comm
    · rw [if_neg htimeout, hbusy.forever htimeout]
      simp [htimeout]

structure Cleared (s : State) : Prop where
  handlers : s.handlers = []
  conn : s.conn = none

/-- The connection and the requests that wait are the same, and so is the deadline while the
connection is open. -/
structure Frame (s u : State) : Prop where
  conn : u.conn = s.conn
  handlers : u.handlers = s.handlers
  deadline : u.live → s.live ∧ u.readDeadline = s.readDeadline

theorem Held.nobody (hanswered : Answered x.state) (hnil : x.state.handlers = [])
    (hidle : x.state.live → x.state.conn.isSome = true →
      (x.state.readDeadline = none ↔ o.idleConnTimeout ≤ 0)) : Held o x where
  answered := hanswered
  idle := fun hlive hconn _ => hidle hlive hconn
  busy := fun _ g hg => by
    rw [hnil] at hg
    cases hg
  later := by simp [hnil]
  known := fun hne => absurd hnil hne

theorem Held.cleared (hanswered : Answered x.state) (h : Cleared x.state) : Held o x :=
  .nobody hanswered h.handlers fun _ hconn => by
    rw [h.conn] at hconn
    cases hconn

theorem Held.frame (h : Held o x) (hanswered : Answered u)
    (hrequests : u.requests = x.state.requests)
    (hu : Frame x.state u) : Held o { x with state := u } where
  answered := hanswered
  idle := fun hlive hconn hnil => by
    obtain ⟨hbefore, heq⟩ := hu.deadline hlive
    dsimp only
    rw [heq]
    exact h.idle hbefore (hu.conn ▸ hconn) (hu.handlers ▸ hnil)
  busy := fun hlive g hg => by
    obtain ⟨hbefore, heq⟩ := hu.deadline hlive
    obtain ⟨htimeout, hforever⟩ := h.busy hbefore g (hu.handlers ▸ hg)
    exact ⟨by simpa [heq] using htimeout, by simpa [heq] using hforever⟩
  later := by
    dsimp only
    rw [hu.handlers]
    exact h.later
  known := fun hne => hrequests ▸ h.known (hu.handlers ▸ hne)

/-! ## The methods -/

theorem Frame.refl (s : State) : Frame s s := ⟨rfl, rfl, fun hlive => ⟨hlive, rfl⟩⟩

theorem Frame.setConn (s : State) (k : ConnId) (c : Under)
    (hc : c.closed = false → (s.conns k).closed = false ∧ c.rTimer = (s.conns k).rTimer) :
    Frame s (s.setConn k c) where
  conn := rfl
  handlers := rfl
  deadline := by
    unfold State.live State.readDeadline State.setConn
    dsimp only
    cases hconn : s.conn with
    | none => simp
    | some j =>
      intro hlive
      have hopen := hlive j rfl
      by_cases hj : j = k
      · subst hj
        rw [Function.update_self] at hopen
        obtain ⟨hbefore, htimer⟩ := hc hopen
        refine ⟨fun i hi => some.inj hi ▸ hbefore, ?_⟩
        simp [htimer]
      · rw [Function.update_of_ne hj] at hopen
        exact ⟨fun i hi => some.inj hi ▸ hopen, by simp [Function.update_of_ne hj]⟩

theorem closeConn_frame (s : State) (k : ConnId) (err : Option Err) :
    Frame s (closeConn s k err) := by
  unfold closeConn
  dsimp only
  split
  · exact .refl s
  · exact .setConn s k _ (by simp)

theorem closeWithErrorWithoutLock_cleared (s : State) (cause : Cause) (err : Option Err) :
    Cleared (closeWithErrorWithoutLock s cause err) := by
  refine ⟨(closeWithErrorWithoutLock_keeps s cause err).2, ?_⟩
  unfold closeWithErrorWithoutLock
  dsimp only
  split
  · next hconn => exact hconn
  · rfl

theorem closeWithError_cases (s : State) (cause : Cause) (err : Option Err) :
    closeWithError s cause err = s ∨ Cleared (closeWithError s cause err) := by
  unfold closeWithError
  split
  · exact .inl rfl
  · exact .inr (closeWithErrorWithoutLock_cleared _ _ _)

theorem setReadDeadline_live (hconn : s.conn.isSome = true) (t : Option Time)
    (hlive : (setReadDeadline s t).live) : s.live ∧ (setReadDeadline s t).readDeadline = t := by
  obtain ⟨k, hk⟩ := isSome_iff_exists.1 hconn
  unfold setReadDeadline State.live State.readDeadline at *
  rw [hk] at hlive ⊢
  dsimp only at hlive ⊢
  split at hlive
  · next hclosed =>
    rw [hk] at hlive
    rw [hlive k rfl] at hclosed
    cases hclosed
  · next hopen =>
    rw [if_neg hopen]
    refine ⟨fun j hj => some.inj hj ▸ Bool.eq_false_iff.2 hopen, ?_⟩
    simp [State.setConn, hk]

theorem closeWithError_held (h : Held o x) (cause : Cause) (err : Option Err) :
    Held o { x with state := closeWithError x.state cause err } := by
  rcases closeWithError_cases x.state cause err with heq | hcleared
  · rw [heq]
    exact h
  · exact .cleared (h.answered.keeps (closeWithError_keeps x.state cause err)) hcleared

/-! ## Responses -/

/-- What a response can come to. -/
inductive Turn (o : Options) (s u : State) (now : Time) : Prop where
  | nobody (hu : u = s)
  | late (hu : Cleared u)
  | next (head next : ResHandler) (rest : List ResHandler) (hs : s.handlers = head :: next :: rest)
      (hhandlers : u.handlers = next :: rest)
      (htimeout : 0 < o.timeout → u.live → s.live ∧ u.readDeadline = s.readDeadline)
      (hforever : ¬ 0 < o.timeout → u.live → u.readDeadline = some (next.t + o.timeout))
  | last (hhandlers : u.handlers = [])
      (hdeadline : u.live →
        u.readDeadline = if 0 < o.idleConnTimeout then some (now + o.idleConnTimeout) else none)

theorem onResponse_turn (hs : Answered s) (k : ConnId) (res : Response) (now : Time) :
    Turn o s (onResponse o s k res now) now := by
  unfold onResponse
  split
  · next head rest hopen hhandlers =>
    have hconn : s.conn.isSome = true := hs.connected (by rw [hhandlers]; exact cons_ne_nil _ _)
    dsimp only
    split
    · next next tail =>
      split
      · next htimeout =>
        split
        · exact .late (closeWithErrorWithoutLock_cleared _ _ _)
        · exact .next head next tail hhandlers rfl (fun _ hlive => ⟨hlive, rfl⟩)
            (fun hnot => absurd htimeout hnot)
      · next hforever =>
        exact .next head next tail hhandlers (handlers_setReadDeadline _ _)
          (fun htimeout => absurd htimeout hforever)
          (fun _ hlive => (setReadDeadline_live (by exact hconn) _ hlive).2)
    · exact .last (handlers_setReadDeadline _ _)
        (fun hlive => (setReadDeadline_live (by exact hconn) _ hlive).2)
  · exact .nobody rfl

theorem onResponse_held (h : Held o x) (k : ConnId) (res : Response) (now : Time) :
    Held o { x with state := onResponse o x.state k res now } := by
  have hkeeps : Keeps x.state (onResponse o x.state k res now) := onResponse_keeps x.state k res now
  have hanswered := h.answered.keeps hkeeps
  cases onResponse_turn (o := o) h.answered k res now with
  | nobody hu =>
    rw [hu]
    exact h
  | late hu => exact .cleared hanswered hu
  | next head next rest hs hhandlers htimeout hforever =>
    have hlater : next.h ≠ x.first := h.later next (by rw [hs]; exact mem_cons_self)
    refine ⟨hanswered, fun _ _ hnil => ?_, fun hlive g hg => ?_, ?_, fun _ => ?_⟩
    · rw [hhandlers] at hnil
      cases hnil
    · rw [hhandlers] at hg
      cases hg
      constructor
      · intro hpos
        obtain ⟨hbefore, heq⟩ := htimeout hpos hlive
        exact heq.trans ((h.busy hbefore head (by rw [hs]; rfl)).timeout hpos)
      · intro hnot
        dsimp only
        rw [hforever hnot hlive]
        simp [hlater]
    · dsimp only
      rw [hhandlers]
      exact fun g hg => h.later g (by rw [hs]; exact mem_cons_of_mem _ hg)
    · dsimp only
      rw [hkeeps.requests]
      exact h.known (by rw [hs]; exact cons_ne_nil _ _)
  | last hhandlers hdeadline =>
    refine .nobody hanswered hhandlers fun hlive _ => ?_
    dsimp only
    rw [hdeadline hlive]
    split
    · next hpos => simp [Int.not_le.2 hpos]
    · next hnot => simp [Int.not_lt.1 hnot]

/-! ## Requests -/

theorem sendRequest_cases (hconn : s.conn.isSome = true) (r : Request) (write : Option Err) :
    Cleared (sendRequest s r write) ∨ Frame s (sendRequest s r write) := by
  unfold sendRequest
  split
  · next hnone =>
    rw [hnone] at hconn
    cases hconn
  · split
    · exact .inr ⟨rfl, rfl, fun hlive => ⟨hlive, rfl⟩⟩
    · exact .inl (closeWithErrorWithoutLock_cleared _ _ _)

theorem dialAndSend_cases (s : State) (r : Request) (scheme : Scheme) (env : DoEnv) :
    Cleared (dialAndSend o s r scheme env) ∨
      ((dialAndSend o s r scheme env).handlers = s.handlers ∧
        ((dialAndSend o s r scheme env).live →
          (dialAndSend o s r scheme env).readDeadline = none)) := by
  unfold dialAndSend
  split
  · exact .inl (closeWithErrorWithoutLock_cleared _ _ _)
  · split
    · exact .inl (closeWithErrorWithoutLock_cleared _ _ _)
    · dsimp only
      split
      · exact .inl (closeWithErrorWithoutLock_cleared _ _ _)
      · rcases sendRequest_cases (s := connect s (netDial o env)) rfl r env.write
          with hcleared | hsent
        · exact .inl hcleared
        · refine .inr ⟨hsent.handlers, fun hlive => (hsent.deadline hlive).2.trans ?_⟩
          simp [State.readDeadline, connect, State.setConn, NBConn]

/-- What `Do` can come to. -/
inductive DoOutcome (o : Options) (s : State) (env : DoEnv) (u : State) : Prop where
  | cleared (hu : Cleared u)
  | refused (hs : s.handlers = []) (hu : Frame s u)
  | dialled (g : ResHandler) (hg : g.h = s.requests) (hs : s.handlers = []) (hconn : s.conn = none)
      (hu : u.handlers = [g]) (hdeadline : u.live → u.readDeadline = none)
  | idle (g : ResHandler) (hg : g.h = s.requests) (hs : s.handlers = [])
      (hconn : s.conn.isSome = true) (hu : u.handlers = [g])
      (hdeadline : u.live → s.live ∧ u.readDeadline =
        if 0 < o.timeout then some (env.started + o.timeout) else s.readDeadline)
  | behind (f g : ResHandler) (fs : List ResHandler) (hg : g.h = s.requests)
      (hs : s.handlers = f :: fs) (hu : u.handlers = f :: (fs ++ [g]))
      (hdeadline : u.live → s.live ∧ u.readDeadline = s.readDeadline)

theorem ite_setReadDeadline (hconn : s.conn.isSome = true) (c : Prop) [Decidable c]
    (t : Option Time) :
    (if c then setReadDeadline s t else s).conn = s.conn ∧
      (if c then setReadDeadline s t else s).handlers = s.handlers ∧
      ((if c then setReadDeadline s t else s).live → s.live ∧
        (if c then setReadDeadline s t else s).readDeadline = if c then t else s.readDeadline) := by
  by_cases hc : c
  · rw [if_pos hc, if_pos hc]
    exact ⟨conn_setReadDeadline s t, handlers_setReadDeadline s t, setReadDeadline_live hconn t⟩
  · rw [if_neg hc, if_neg hc]
    exact ⟨rfl, rfl, fun hlive => ⟨hlive, rfl⟩⟩

theorem Do_outcome (hs : Answered s) (scheme : Scheme) (env : DoEnv) :
    DoOutcome o s env (Do o s scheme env) := by
  unfold Do
  by_cases hclosed : s.closed = true
  · rw [if_pos hclosed]
    exact .refused (hs.closed hclosed) ⟨rfl, rfl, fun hlive => ⟨hlive, rfl⟩⟩
  rw [if_neg hclosed]
  let g : ResHandler := { c := s.conn, t := env.sent, h := s.requests }
  let queued : State := { s with requests := s.requests + 1, handlers := s.handlers ++ [g] }
  by_cases hconn : s.conn.isSome = true
  · rw [if_pos hconn]
    obtain ⟨harmed, hhandlers, hdeadline⟩ := ite_setReadDeadline (s := queued) hconn
      (0 < o.timeout ∧ queued.handlers.length = 1) (some (env.started + o.timeout))
    rcases sendRequest_cases (harmed ▸ hconn) s.requests env.write with hcleared | hsent
    · exact .cleared hcleared
    have hafter :=
      fun hlive => (hsent.deadline hlive).2.trans (hdeadline (hsent.deadline hlive).1).2
    have hbefore := fun hlive => (hdeadline (hsent.deadline hlive).1).1
    by_cases hnil : s.handlers = []
    · have hone : queued.handlers = [g] := by
        dsimp only [queued]
        rw [hnil, nil_append]
      refine .idle g rfl hnil hconn (hsent.handlers.trans (hhandlers.trans hone))
        fun hlive => ⟨hbefore hlive, (hafter hlive).trans ?_⟩
      rw [hone, length_singleton]
      simp only [and_true]
      rfl
    · obtain ⟨f, fs, hcons⟩ := exists_cons_of_ne_nil hnil
      have hmore : queued.handlers = f :: (fs ++ [g]) := by
        dsimp only [queued]
        rw [hcons, cons_append]
      refine .behind f g fs rfl hcons (hsent.handlers.trans (hhandlers.trans hmore))
        fun hlive => ⟨hbefore hlive, (hafter hlive).trans ?_⟩
      rw [hmore]
      simp
      rfl
  · rw [if_neg hconn]
    have hnone : s.conn = none := not_isSome_iff_eq_none.1 hconn
    have hnil : s.handlers = [] := by
      by_contra hne
      exact hconn (hs.connected hne)
    rcases dialAndSend_cases queued s.requests scheme env with hcleared | ⟨hhandlers, hdeadline⟩
    · exact .cleared hcleared
    · refine .dialled g rfl hnil hnone (hhandlers.trans ?_) hdeadline
      dsimp only [queued]
      rw [hnil, nil_append]

theorem Answered.handlers_lt (h : Answered s) {g : ResHandler} (hg : g ∈ s.handlers) :
    g.h < s.requests := by
  by_contra hge
  have htally := h.tally g.h
  rw [if_neg hge, State.tally] at htally
  have hpos : 0 < (s.handlers.map ResHandler.h).count g.h :=
    count_pos_iff.2 (mem_map_of_mem hg)
  omega

theorem Held.alone {g : ResHandler} (hanswered : Answered y.state) (hu : y.state.handlers = [g])
    (hfirst : g.h = y.first) (hbusy : y.state.live → y.Busy o g) : Held o y where
  answered := hanswered
  idle := fun _ _ hnil => by
    rw [hu] at hnil
    cases hnil
  busy := fun hlive f hf => by
    rw [hu] at hf
    cases hf
    exact hbusy hlive
  later := by simp [hu]
  known := fun _ => hfirst ▸ hanswered.handlers_lt (hu ▸ mem_singleton_self g)

theorem Do_held (h : Held o x) (scheme : Scheme) (env : DoEnv) :
    Held o (x.record (.step (.Do scheme env)) (Do o x.state scheme env)) := by
  have hanswered : Answered (Do o x.state scheme env) := Do_answered h.answered scheme env
  unfold Timed.record
  dsimp only
  cases Do_outcome (o := o) h.answered scheme env with
  | cleared hu => split <;> exact .cleared hanswered hu
  | refused hs hu =>
    rw [if_pos hs]
    refine .nobody hanswered (hu.handlers.trans hs) fun hlive hconn => ?_
    obtain ⟨hbefore, heq⟩ := hu.deadline hlive
    dsimp only
    rw [heq]
    exact h.idle hbefore (hu.conn ▸ hconn) hs
  | dialled g hg hs hconn hu hdeadline =>
    rw [if_pos hs]
    refine .alone hanswered hu hg fun hlive => ?_
    constructor
    · intro _
      simp [hdeadline hlive, hconn]
    · intro _
      simp [hdeadline hlive, hconn, hg]
  | idle g hg hs hconn hu hdeadline =>
    rw [if_pos hs]
    refine .alone hanswered hu hg fun hlive => ?_
    obtain ⟨hbefore, heq⟩ := hdeadline hlive
    have hdialled : x.state.conn.isNone = false := by
      obtain ⟨k, hk⟩ := isSome_iff_exists.1 hconn
      rw [hk]
      rfl
    constructor
    · intro htimeout
      simp [heq, htimeout, hdialled]
    · intro hforever
      simp [heq, hforever, hdialled, hg, h.idle hbefore hconn hs]
  | behind f g fs hg hs hu hdeadline =>
    have hne : x.state.handlers ≠ [] := by
      rw [hs]
      exact cons_ne_nil _ _
    have hknown := h.known hne
    rw [if_neg hne]
    refine ⟨hanswered, fun _ _ hnil => ?_, fun hlive f' hf' => ?_, fun f' hf' => ?_, fun _ => ?_⟩
    · rw [hu] at hnil
      cases hnil
    · rw [hu] at hf'
      cases hf'
      obtain ⟨hbefore, heq⟩ := hdeadline hlive
      obtain ⟨htimeout, hforever⟩ := h.busy hbefore f (by rw [hs]; rfl)
      constructor
      · dsimp only
        rw [heq, Function.update_of_ne (Nat.ne_of_lt hknown)]
        exact htimeout
      · dsimp only
        rw [heq]
        exact hforever
    · rw [hu] at hf'
      rcases mem_append.1 hf' with hf' | hf'
      · exact h.later f' (by rw [hs]; exact hf')
      · rw [mem_singleton.1 hf', hg]
        exact (Nat.ne_of_lt hknown).symm
    · have hlast : g ∈ (Do o x.state scheme env).handlers := by
        rw [hu]
        simp
      exact hknown.trans (hg ▸ hanswered.handlers_lt hlast)

/-! ## Runs -/

theorem step_held {e : Event} (h : Held o x) (hstep : step o x.state e = some u) :
    Held o (x.record (.step e) u) := by
  have hanswered := step_answered h.answered hstep
  cases e with
  | Do scheme env =>
    cases hstep
    exact Do_held h scheme env
  | reset =>
    cases hstep
    change Held o { x with state := reset x.state }
    unfold reset at hanswered ⊢
    split at hanswered
    · next hclosed =>
      rw [if_pos hclosed]
      exact .cleared hanswered ⟨rfl, rfl⟩
    · next hopen =>
      rw [if_neg hopen]
      exact h
  | closeWithError err =>
    cases hstep
    exact closeWithError_held h .own err
  | onComplete k res now =>
    obtain ⟨-, ⟨⟩⟩ := ite_none_right_eq_some.1 hstep
    change Held o { x with state := onComplete o x.state k res now }
    unfold onComplete at hanswered ⊢
    dsimp only at hanswered ⊢
    by_cases hswitch : res.statusCode = 101
    · rw [if_pos hswitch]
      exact onResponse_held h k res now
    · rw [if_neg hswitch] at hanswered ⊢
      split
      · exact h
      · exact h.frame (h.answered.keeps (keeps_setConn _ _ _)) rfl
          (.setConn _ _ _ fun hc => ⟨hc, rfl⟩)
  | connClosed k err =>
    obtain ⟨-, ⟨⟩⟩ := ite_none_right_eq_some.1 hstep
    exact h.frame hanswered (keeps_closeConn _ _ _).requests (closeConn_frame _ _ _)
  | runJob k now =>
    rw [step, map_eq_some_iff] at hstep
    obtain ⟨job, -, rfl⟩ := hstep
    have hpopped : Held o { x with state := popJob x.state k } :=
      h.frame (h.answered.keeps (keeps_setConn _ _ _)) rfl (.setConn _ _ _ fun hc => ⟨hc, rfl⟩)
    cases job with
    | response res => exact onResponse_held hpopped k res now
    | closeProcessor err =>
      let parser : Under := { (popJob x.state k).conns k with parserClosed := true }
      have hparser : Held o { x with state := (popJob x.state k).setConn k parser } :=
        hpopped.frame (hpopped.answered.keeps (keeps_setConn _ _ _)) rfl
          (.setConn _ _ _ fun hc => ⟨hc, rfl⟩)
      exact closeWithError_held hparser (.notice k) err
    | closeParser err => exact closeWithError_held hpopped (.notice k) err

theorem timedStep_held {a : Act} (h : Held o x) (hstep : timedStep o x a = some y) : Held o y := by
  obtain ⟨u, hu, rfl⟩ := map_eq_some_iff.1 hstep
  cases a with
  | step e => exact step_held h hu
  | onResponse k res now =>
    cases hu
    exact onResponse_held h k res now
  | closeWithError cause err =>
    cases hu
    exact closeWithError_held h cause err

/-- In every run, while the connection is open, the read deadline is that of the oldest request that
waits exactly where `Timed.onTime` says so. -/
theorem deadline_tracks_oldest (o : Options) (x : Timed)
    (h : Reaches (timedStep o) (fun _ _ => True) Timed.start x) (hlive : x.state.live) :
    x.Tracks o ↔ x.onTime o = true := by
  have hheld : Held o x := by
    refine h.invariant (P := Held o) (.cleared init_answered ⟨rfl, rfl⟩) ?_
    intro x a y hx _ hstep
    exact timedStep_held hx hstep
  exact hheld.tracks_iff hlive

def doAt (t : Time) : Act :=
  .step (.Do .http { smooth with sent := t, started := t, dialling := t })

def sequentialRun : List Act := [doAt 1, .onResponse 0 okResponse 3, doAt 10, doAt 12]

/-- The second request finds the connection idle and gets its deadline, which the third one leaves
alone. -/
theorem deadline_tracks_oldest_sequential :
    ∃ x, Reaches (timedStep ⟨5, 60⟩) (fun _ _ => True) Timed.start x ∧ x.state.live ∧
      x.state.handlers.map ResHandler.h = [1, 2] ∧ x.state.readDeadline = some 15 ∧
      x.Tracks ⟨5, 60⟩ := by
  obtain ⟨x, hrun, hlive, hhandlers, hdeadline, honTime⟩ :
      ∃ x, sequentialRun.foldlM (guarded (timedStep ⟨5, 60⟩) fun _ _ => true) Timed.start = some x ∧
        x.state.live ∧ x.state.handlers.map ResHandler.h = [1, 2] ∧
        x.state.readDeadline = some 15 ∧ x.onTime ⟨5, 60⟩ = true :=
    ends_of_any (by decide)
  have hreach : Reaches (timedStep ⟨5, 60⟩) (fun _ _ => True) Timed.start x :=
    (Reaches.of_foldlM hrun).mono fun _ _ _ => trivial
  exact ⟨x, hreach, hlive, hhandlers, hdeadline,
    (deadline_tracks_oldest ⟨5, 60⟩ x hreach hlive).2 honTime⟩

def pipelinedRun : List Act :=
  [doAt 0, .onResponse 0 okResponse 1, doAt 2, doAt 5, .onResponse 0 okResponse 6]

def idleRun : List Act := [doAt 0, .onResponse 0 okResponse 1, doAt 2]

/-- With a `Timeout` the request that dials has no deadline, and the second of two requests keeps
that of the first; without one it gets the time at which it was sent, and a request on an idle
connection the end of the idle time. -/
theorem deadline_loses_oldest :
    (∃ x, [doAt 0].foldlM (timedStep ⟨10, 0⟩) Timed.start = some x ∧ x.state.live ∧
      x.state.handlers.map ResHandler.h = [0] ∧ x.state.readDeadline = none ∧
      ¬ x.Tracks ⟨10, 0⟩) ∧
    (∃ x, pipelinedRun.foldlM (timedStep ⟨10, 0⟩) Timed.start = some x ∧ x.state.live ∧
      x.state.handlers.map ResHandler.h = [2] ∧ x.sentAt 2 = 5 ∧
      x.state.readDeadline = some 12 ∧ ¬ x.Tracks ⟨10, 0⟩) ∧
    (∃ x, pipelinedRun.foldlM (timedStep ⟨0, 0⟩) Timed.start = some x ∧ x.state.live ∧
      x.state.handlers.map ResHandler.h = [2] ∧ x.state.readDeadline = some 5 ∧
      ¬ x.Tracks ⟨0, 0⟩) ∧
    (∃ x, idleRun.foldlM (timedStep ⟨0, 60⟩) Timed.start = some x ∧ x.state.live ∧
      x.state.handlers.map ResHandler.h = [1] ∧ x.state.readDeadline = some 61 ∧
      ¬ x.Tracks ⟨0, 60⟩) :=
  ⟨ends_of_any (by decide), ends_of_any (by decide), ends_of_any (by decide),
    ends_of_any (by decide)⟩

end Nbio.Client
