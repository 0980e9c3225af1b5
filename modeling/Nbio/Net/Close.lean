import Nbio.Lib.Machine
import Nbio.Net.Parts

/-!
# Closing a connection

A connection is closed by `Close` and `CloseWithError`, by the timers of its deadlines, and by calls
of `Write`, `Writev`, `Sendfile` and `flush` that fail.  Each of them sets `closed` under the lock
and then calls `closeWithErrorWithoutLock`.  `Sendfile` and `flush` still have the lock then; the
others have given it back, so that the call goes on step by step beside whatever else happens to the
connection.  A call that has the lock is one step, and when it does not return within its fuel it
keeps the lock.
-/

namespace Nbio.Net

open Nbio.Go Nbio.Lib List

namespace Closing

/-! ## Steps -/

/-- How far a call of `closeWithErrorWithoutLock` is: it is about to store the error, to release
entry `i` of the list, to take the connection out of the poller, to close the descriptor. -/
inductive Stage where
  | storing
  | releasing (i : Nat)
  | deleting
  | closing
deriving DecidableEq, Repr

/-- A call of `closeWithErrorWithoutLock` that does not have the lock. -/
structure Closer where
  err : Option Err
  stage : Stage
deriving DecidableEq, Repr

/-- A connection and what works on it.  `entered` records the errors that
`closeWithErrorWithoutLock` was called with. -/
structure State where
  conn : Conn
  closers : List Closer
  /-- A call has the lock and does not return. -/
  locked : Bool
  entered : List (Option Err)
  /-- How often the descriptor was closed. -/
  fdCloses : Nat
deriving DecidableEq, Repr

def start (c : Conn) : State :=
  { conn := c, closers := [], locked := false, entered := [], fdCloses := 0 }

/-- `closed` is set, the lock is given back and `closeWithErrorWithoutLock` called. -/
def State.enter (s : State) (c : Conn) (err : Option Err) : State :=
  { s with
    conn := { c with closed := true }
    closers := s.closers ++ [{ err := err, stage := .storing }]
    entered := s.entered ++ [err] }

variable (g : Engine) (k : Kernel)

/-- The end of `Write` and `Writev`, given what `write` or `writev` returned. -/
def State.afterWrite (s : State) (r : (Int × Option Err) × Conn) : State :=
  match r.1.2 with
  | some e => if e.isRetry then { s with conn := r.2.settle g k } else s.enter r.2 (some e)
  | none => { s with conn := r.2.settle g k }

/-- A call of `Sendfile` or `flush`.  Each `closeWithErrorWithoutLock` in it has called `onClose`
and closed the descriptor. -/
def State.afterLocked (s : State) (r : Conn.Outcome × Conn) : State :=
  let runs := r.2.closes.drop s.conn.closes.length
  { s with
    conn := r.2
    locked := match r.1 with
      | .returns _ _ => false
      | _ => true
    entered := s.entered ++ runs
    fdCloses := s.fdCloses + runs.length }

/-- The next step of call `n` of `closeWithErrorWithoutLock`. -/
def State.proceed (s : State) (n : Nat) (cl : Closer) : State :=
  match cl.stage with
  | .storing =>
    { s with
      conn := { s.conn with closeErr := cl.err }
      closers := s.closers.set n { cl with stage := .releasing 0 } }
  | .releasing i =>
    match s.conn.writeList[i]? with
    | some t =>
      { s with
        conn := s.conn.releaseToWrite t
        closers := s.closers.set n { cl with stage := .releasing (i + 1) } }
    | none =>
      { s with
        conn := { s.conn with writeList := [] }
        closers := s.closers.set n { cl with stage := .deleting } }
  | .deleting =>
    let c := s.conn
    { s with
      conn :=
        if c.added && c.typ != .udpServer then { c with closes := c.closes ++ [c.closeErr] } else c
      closers := s.closers.set n { cl with stage := .closing } }
  | .closing =>
    { s with
      conn := { s.conn with epoll := none }
      closers := s.closers.eraseIdx n
      fdCloses := s.fdCloses + 1 }

inductive Event where
  | read
  | write (b : Bytes)
  | writev (bs : List Bytes)
  | sendfile (fuel : Nat) (f : Option Conn.File) (remain : Int)
  | flush (fuel : Nat)
  /-- `Close`, `CloseWithError`, or the timer of a deadline. -/
  | closeWithError (err : Option Err)
  | closer (n : Nat)
deriving DecidableEq, Repr

/-- A call under the lock, for a connection that is not closed. -/
def State.call (s : State) : Event → State
  | .read => { s with conn := { s.conn with calls := s.conn.calls + 1 } }
  | .write b => s.afterWrite g k (s.conn.write g k b)
  | .writev bs =>
    s.afterWrite g k (match bs with
      | [b] => s.conn.write g k b
      | bs => s.conn.writev g k bs)
  | .sendfile fuel f remain => s.afterLocked (s.conn.Sendfile g k fuel f remain)
  | .flush fuel => s.afterLocked (s.conn.flush g k fuel)
  | .closeWithError err => s.enter { s.conn with wTimer := false } err
  | .closer _ => s

def step (s : State) (e : Event) : Option State :=
  match e with
  | .closer n => s.closers[n]?.map fun cl => s.proceed n cl
  | e =>
    if s.locked then none
    else if s.conn.closed then some s
    else some (s.call g k e)

end Closing

/-! ## What the calls do with the entries -/

namespace Conn

variable {g : Engine} {k : Kernel} {c c' c'' : Conn}

/-- Every entry that was queued has been released once or waits, in the order of queueing. -/
def Numbered (queued : Nat) (released waiting : List ToWrite) : Prop :=
  (released ++ waiting).map ToWrite.id = range queued

/-- A part of a call: it closes nothing and loses no entry. -/
structure Keeps (c c' : Conn) : Prop where
  typ : c'.typ = c.typ
  closed : c'.closed = c.closed
  added : c'.added = c.added
  closes : c'.closes = c.closes
  entries : Numbered c.queued c.released c.writeList → Numbered c'.queued c'.released c'.writeList

theorem Keeps.refl (c : Conn) : Keeps c c := ⟨rfl, rfl, rfl, rfl, id⟩

theorem Keeps.trans (h : Keeps c c') (h' : Keeps c' c'') : Keeps c c'' where
  typ := h'.typ.trans h.typ
  closed := h'.closed.trans h.closed
  added := h'.added.trans h.added
  closes := h'.closes.trans h.closes
  entries := h'.entries ∘ h.entries

theorem Registers.keeps (h : Registers c c') : Keeps c c' := by
  obtain ⟨_, _, _, _, rfl⟩ := h
  exact ⟨rfl, rfl, rfl, rfl, id⟩

section Numbered

variable {queued : Nat} {released waiting : List ToWrite}

theorem Numbered.of_ids {released' waiting' : List ToWrite} (h : Numbered queued released waiting)
    (hids : (released' ++ waiting').map ToWrite.id = (released ++ waiting).map ToWrite.id) :
    Numbered queued released' waiting' :=
  hids.trans h

theorem Numbered.put {t : ToWrite} (h : Numbered queued released waiting) (hid : t.id = queued) :
    Numbered (queued + 1) released (waiting ++ [t]) := by
  rw [Numbered, ← append_assoc, map_append, show _ = _ from h, range_succ, map_singleton, hid]

end Numbered

theorem newToWriteBuf_keeps (buf : Bytes) : Keeps c (c.newToWriteBuf g buf) := by
  obtain ⟨b, -, heq⟩ | ⟨init, tail, b, b', hlist, -, -, heq⟩ := newToWriteBuf_cases g c buf
  · rw [heq]
    exact ⟨rfl, rfl, rfl, rfl, fun h => h.put rfl⟩
  · rw [heq]
    refine ⟨rfl, rfl, rfl, rfl, fun h => h.of_ids ?_⟩
    simp [hlist]

theorem Part.keeps {flushes : Bool} {q : Nat} {u : Int} (h : Part g c flushes c' q u) :
    Keeps c c' := by
  cases h with
  | called => exact ⟨rfl, rfl, rfl, rfl, id⟩
  | sent data => exact ⟨rfl, rfl, rfl, rfl, id⟩
  | reported n =>
    unfold reportWritten
    split <;> exact ⟨rfl, rfl, rfl, rfl, id⟩
  | queued b => exact newToWriteBuf_keeps b
  | queuedFile fd offset remain file => exact ⟨rfl, rfl, rfl, rfl, fun h => h.put rfl⟩
  | shrunk head' n hlist hid _ _ _ =>
    refine ⟨rfl, rfl, rfl, rfl, fun h => h.of_ids ?_⟩
    simp [hlist, hid]
  | released head' n hlist hid _ =>
    refine ⟨rfl, rfl, rfl, rfl, fun h => h.of_ids ?_⟩
    simp [hlist, hid, releaseToWrite]

theorem Parts.keeps {flushes : Bool} {q : Nat} {u : Int} (h : Parts g flushes c c' q u) :
    Keeps c c' := by
  induction h with
  | refl c => exact .refl c
  | part h => exact h.keeps
  | trans _ _ ih ih' => exact ih.trans ih'
  | mono _ _ ih => exact ih

theorem write_keeps (b : Bytes) : Keeps c (c.write g k b).2 := by
  obtain ⟨_, -, h⟩ := write_parts b
  exact h.keeps

theorem writev_keeps (bs : List Bytes) : Keeps c (c.writev g k bs).2 := by
  obtain ⟨_, -, h⟩ := writev_parts bs
  exact h.keeps

/-- A call that has the lock to its end: it keeps the connection, or has failed and closed it. -/
inductive Ends (c : Conn) : Conn → Prop where
  | kept {c' : Conn} (h : Keeps c c') : Ends c c'
  | failed {c₁ c' : Conn} (h : Keeps c c₁) (e : Err) (heq : c' = c₁.fail e) : Ends c c'

theorem Made.ends {flushes : Bool} {q : Nat} {u : Int} (h : Made g k flushes c c' q u) :
    Ends c c' := by
  obtain ⟨c₁, hparts, hend⟩ := h
  rcases hend.registers with hreg | ⟨e, he⟩
  · exact .kept (hparts.keeps.trans hreg.keeps)
  · exact .failed hparts.keeps e he

theorem Sendfile_ends (fuel : Nat) (f : Option File) (remain : Int) :
    Ends c (c.Sendfile g k fuel f remain).2 := by
  cases f with
  | none => exact .kept (.refl c)
  | some f =>
    obtain ⟨_, h, -⟩ := Sendfile_made f remain fuel
    exact h.ends

end Conn

/-! ## The invariant -/

namespace Closing

variable {g : Engine} {k : Kernel} {s u : State}

/-- The entries that a call of `closeWithErrorWithoutLock` has not released yet. -/
def Closer.unreleased (writeList : List ToWrite) (cl : Closer) : List ToWrite :=
  match cl.stage with
  | .releasing i => writeList.drop i
  | _ => writeList

def State.waiting (s : State) : List ToWrite := s.closers.foldl Closer.unreleased s.conn.writeList

/-- What a call of `closeWithErrorWithoutLock` has done at a stage. -/
structure Closer.Done (cl : Closer) (s : State) : Prop where
  err : cl.stage ≠ .storing → s.conn.closeErr = cl.err
  released : cl.stage = .deleting ∨ cl.stage = .closing → s.conn.writeList = []
  closes : s.conn.closes = if cl.stage = .closing then [cl.err] else []

/-- The connection is open, or one call of `closeWithErrorWithoutLock` is on its way, or it is
over. -/
inductive Inv (s : State) : Prop where
  | isOpen (hclosed : s.conn.closed = false) (hclosers : s.closers = []) (hentered : s.entered = [])
    (hcloses : s.conn.closes = []) (hfd : s.fdCloses = 0)
  | closing (cl : Closer) (hclosed : s.conn.closed = true) (hclosers : s.closers = [cl])
    (hentered : s.entered = [cl.err]) (hdone : cl.Done s) (hfd : s.fdCloses = 0)
  | ended (err : Option Err) (hclosed : s.conn.closed = true) (hclosers : s.closers = [])
    (hentered : s.entered = [err]) (hcloses : s.conn.closes = [err]) (hlist : s.conn.writeList = [])
    (hfd : s.fdCloses = 1)

/-- The connection is a stream in a poller, and no entry is lost or released twice. -/
structure Sound (s : State) : Prop where
  isStream : s.conn.typ.isStream = true
  added : s.conn.added = true
  entries : Conn.Numbered s.conn.queued s.conn.released s.waiting

/-- A connection that has just been added to a poller. -/
structure Fresh (c : Conn) : Prop where
  isStream : c.typ.isStream = true
  added : c.added = true
  isOpen : c.closed = false
  writeList : c.writeList = []
  queued : c.queued = 0
  released : c.released = []
  closes : c.closes = []

theorem start_inv {c : Conn} (h : Fresh c) : Inv (start c) := .isOpen h.isOpen rfl rfl h.closes rfl

theorem start_sound {c : Conn} (h : Fresh c) : Sound (start c) := by
  refine ⟨h.isStream, h.added, ?_⟩
  show Conn.Numbered c.queued c.released c.writeList
  rw [h.queued, h.released, h.writeList]
  rfl

theorem Inv.of_closed (h : Inv s) (hopen : s.conn.closed = false) :
    s.closers = [] ∧ s.entered = [] ∧ s.conn.closes = [] ∧ s.fdCloses = 0 := by
  cases h with
  | isOpen hclosed hclosers hentered hcloses hfd => exact ⟨hclosers, hentered, hcloses, hfd⟩
  | closing cl hclosed => rw [hclosed] at hopen; cases hopen
  | ended err hclosed => rw [hclosed] at hopen; cases hopen

section

variable (h : Inv s ∧ Sound s) (hopen : s.conn.closed = false)

include h hopen

theorem keeps_inv {c : Conn} (hkeeps : Conn.Keeps s.conn c) (locked : Bool) :
    Inv { s with conn := c, locked := locked } ∧ Sound { s with conn := c, locked := locked } := by
  obtain ⟨hclosers, hentered, hcloses, hfd⟩ := h.1.of_closed hopen
  refine ⟨.isOpen (hkeeps.closed.trans hopen) hclosers hentered (hkeeps.closes.trans hcloses) hfd,
    ?_⟩
  refine ⟨by rw [hkeeps.typ]; exact h.2.isStream, hkeeps.added.trans h.2.added, ?_⟩
  have hentries := h.2.entries
  simp only [State.waiting, hclosers] at hentries ⊢
  exact hkeeps.entries hentries

theorem enter_inv {c : Conn} {err : Option Err} (hkeeps : Conn.Keeps s.conn c) :
    Inv (s.enter c err) ∧ Sound (s.enter c err) := by
  obtain ⟨hclosers, hentered, hcloses, hfd⟩ := h.1.of_closed hopen
  obtain ⟨-, hsound⟩ := keeps_inv h hopen hkeeps s.locked
  have hone : (s.enter c err).closers = [{ err := err, stage := .storing }] := by
    simp [State.enter, hclosers]
  refine ⟨.closing { err := err, stage := .storing } rfl hone ?_ ⟨?_, ?_, ?_⟩ hfd,
    hsound.isStream, hsound.added, ?_⟩
  · simp [State.enter, hentered]
  · exact fun hne => absurd rfl hne
  · rintro (hstage | hstage) <;> cases hstage
  · exact hkeeps.closes.trans hcloses
  · have hentries := hsound.entries
    rw [State.waiting, hone]
    simp only [hclosers] at hentries
    exact hentries

theorem afterWrite_inv {r : (Int × Option Err) × Conn} (hkeeps : Conn.Keeps s.conn r.2) :
    Inv (s.afterWrite g k r) ∧ Sound (s.afterWrite g k r) := by
  have hsettle :=
    keeps_inv h hopen (hkeeps.trans (Conn.settle_registers (g := g) (k := k)).keeps) s.locked
  unfold State.afterWrite
  split
  · split
    · exact hsettle
    · exact enter_inv h hopen hkeeps
  · exact hsettle

end

theorem fail_fields {c : Conn} {e : Err} :
    (c.fail e).closed = true ∧ (c.fail e).writeList = [] ∧
      (c.fail e).released = c.released ++ c.writeList ∧ (c.fail e).queued = c.queued ∧
      (c.fail e).typ = c.typ ∧ (c.fail e).added = c.added := by
  unfold Conn.fail Conn.closeWithErrorWithoutLock
  dsimp only
  split <;> exact ⟨rfl, rfl, rfl, rfl, rfl, rfl⟩

theorem deletes {c : Conn} (hstream : c.typ.isStream = true) (hadded : c.added = true) :
    (c.added && c.typ != .udpServer) = true := by
  rw [hadded]
  cases htyp : c.typ with
  | udpServer => rw [htyp] at hstream; cases hstream
  | _ => rfl

theorem fail_closes {c : Conn} (hstream : c.typ.isStream = true) (hadded : c.added = true)
    (hcloses : c.closes = []) (e : Err) : (c.fail e).closes = [some e] := by
  unfold Conn.fail Conn.closeWithErrorWithoutLock
  dsimp only
  rw [if_pos (deletes hstream hadded), hcloses]
  rfl

theorem afterLocked_inv {r : Conn.Outcome × Conn} (h : Inv s ∧ Sound s)
    (hopen : s.conn.closed = false) (hends : Conn.Ends s.conn r.2) :
    Inv (s.afterLocked r) ∧ Sound (s.afterLocked r) := by
  obtain ⟨hclosers, hentered, hcloses, hfd⟩ := h.1.of_closed hopen
  obtain ⟨outcome, c⟩ := r
  cases hends with
  | kept hkeeps =>
    have hnone : c.closes.drop s.conn.closes.length = [] := by
      rw [hkeeps.closes, drop_length]
    have hsame : s.afterLocked (outcome, c) =
        { s with conn := c, locked := (s.afterLocked (outcome, c)).locked } := by
      simp [State.afterLocked, hnone]
    rw [hsame]
    exact keeps_inv h hopen hkeeps _
  | @failed c' _ hkeeps e heq =>
    obtain ⟨-, hstream, hadded, hentries⟩ := keeps_inv h hopen hkeeps s.locked
    simp only [State.waiting, hclosers, foldl_nil] at hentries
    have hruns : (c'.fail e).closes = [some e] :=
      fail_closes hstream hadded (hkeeps.closes.trans hcloses) e
    obtain ⟨hclosed, hlist, hreleased, hqueued, htyp, hadd⟩ := fail_fields
    rw [← heq] at hruns hclosed hlist hreleased hqueued htyp hadd
    dsimp only at hruns hclosed hlist hreleased hqueued htyp hadd
    refine ⟨.ended (some e) hclosed hclosers ?_ hruns hlist ?_, ?_, hadd.trans hadded, ?_⟩
    · simp [State.afterLocked, hentered, hcloses, hruns]
    · simp [State.afterLocked, hfd, hcloses, hruns]
    · rw [← htyp] at hstream
      exact hstream
    · simp only [State.afterLocked, State.waiting, hclosers, foldl_nil]
      rw [hqueued]
      exact hentries.of_ids (by rw [hreleased, hlist, append_nil])

variable {cl : Closer}

theorem goOn_inv {c : Conn} {stage : Stage} (hclosers : s.closers = [cl])
    (hentered : s.entered = [cl.err]) (hfd : s.fdCloses = 0) (hclosed : c.closed = true)
    (hstream : c.typ.isStream = true) (hadded : c.added = true)
    (hdone : { cl with stage := stage }.Done { s with conn := c })
    (hentries : Conn.Numbered c.queued c.released
      (Closer.unreleased c.writeList { cl with stage := stage })) :
    Inv { s with conn := c, closers := s.closers.set 0 { cl with stage := stage } } ∧
      Sound { s with conn := c, closers := s.closers.set 0 { cl with stage := stage } } := by
  rw [hclosers]
  exact ⟨.closing { cl with stage := stage } hclosed rfl hentered
    ⟨hdone.err, hdone.released, hdone.closes⟩ hfd, hstream, hadded, hentries⟩

theorem proceed_inv {n : Nat} (h : Inv s ∧ Sound s) (hcl : s.closers[n]? = some cl) :
    Inv (s.proceed n cl) ∧ Sound (s.proceed n cl) := by
  obtain ⟨hinv, hstream, hadded, hentries⟩ := h
  cases hinv with
  | isOpen hclosed hclosers => rw [hclosers] at hcl; cases hcl
  | ended err hclosed hclosers => rw [hclosers] at hcl; cases hcl
  | closing cl' hclosed hclosers hentered hdone hfd =>
    obtain ⟨rfl, rfl⟩ : n = 0 ∧ cl' = cl := by
      rw [hclosers] at hcl
      cases n with
      | zero => exact ⟨rfl, Option.some.inj hcl⟩
      | succ n => cases hcl
    obtain ⟨herr, hreleased, hcloses⟩ := hdone
    obtain ⟨err, stage⟩ := cl'
    simp only [State.waiting, hclosers, foldl_cons] at hentries
    cases stage with
    | storing =>
      exact goOn_inv hclosers hentered hfd hclosed hstream hadded
        ⟨fun _ => rfl, (by rintro (hstage | hstage) <;> cases hstage), hcloses⟩ hentries
    | releasing i =>
      have hopenErr := herr nofun
      unfold State.proceed
      dsimp only
      split
      · next t hentry =>
        have hdrop : s.conn.writeList.drop i = t :: s.conn.writeList.drop (i + 1) :=
          List.drop_eq_getElem?_toList_append.trans (by rw [hentry]; rfl)
        simp only [Closer.unreleased, hdrop] at hentries
        refine goOn_inv hclosers hentered hfd hclosed hstream hadded
          ⟨fun _ => hopenErr, (by rintro (hstage | hstage) <;> cases hstage), hcloses⟩
          (hentries.of_ids ?_)
        simp [Conn.releaseToWrite, Closer.unreleased]
      · next hentry =>
        have hend : s.conn.writeList.drop i = [] :=
          drop_eq_nil_iff.2 (List.getElem?_eq_none_iff.1 hentry)
        simp only [Closer.unreleased, hend] at hentries
        exact goOn_inv hclosers hentered hfd hclosed hstream hadded
          ⟨fun _ => hopenErr, fun _ => rfl, hcloses⟩ hentries
    | deleting =>
      have hlist := hreleased (.inl rfl)
      have hopenErr := herr nofun
      unfold State.proceed
      dsimp only
      rw [if_pos (deletes hstream hadded)]
      refine goOn_inv hclosers hentered hfd hclosed hstream hadded
        ⟨fun _ => hopenErr, fun _ => hlist, ?_⟩ hentries
      rw [hcloses, hopenErr]
      rfl
    | closing =>
      have hlist := hreleased (.inr rfl)
      refine ⟨.ended err hclosed ?_ hentered hcloses hlist ?_, hstream, hadded, ?_⟩
      · simp [State.proceed, hclosers]
      · simp [State.proceed, hfd]
      · simp only [State.proceed, hclosers]
        exact hentries

theorem step_inv {e : Event} (h : Inv s ∧ Sound s) (hstep : step g k s e = some u) :
    Inv u ∧ Sound u := by
  have hcall : ∀ e', (if s.locked then none else if s.conn.closed then some s
      else some (s.call g k e')) = some u → (s.conn.closed = false → Inv (s.call g k e') ∧
        Sound (s.call g k e')) → Inv u ∧ Sound u := by
    intro e' hsome hopen
    split at hsome
    · cases hsome
    · split at hsome
      · cases hsome
        exact h
      · next hclosed =>
        cases hsome
        exact hopen (Bool.eq_false_iff.2 hclosed)
  cases e with
  | closer n =>
    obtain ⟨cl, hcl, rfl⟩ := Option.map_eq_some_iff.1 hstep
    exact proceed_inv h hcl
  | read =>
    have hkeeps : Conn.Keeps s.conn { s.conn with calls := s.conn.calls + 1 } :=
      ⟨rfl, rfl, rfl, rfl, id⟩
    exact hcall .read hstep fun hopen => keeps_inv h hopen hkeeps s.locked
  | write b => exact hcall (.write b) hstep fun hopen => afterWrite_inv h hopen (Conn.write_keeps b)
  | writev bs =>
    refine hcall (.writev bs) hstep fun hopen => afterWrite_inv h hopen ?_
    split
    · exact Conn.write_keeps _
    · exact Conn.writev_keeps bs
  | sendfile fuel f remain =>
    exact hcall (.sendfile fuel f remain) hstep fun hopen =>
      afterLocked_inv h hopen (Conn.Sendfile_ends fuel f remain)
  | flush fuel =>
    exact hcall (.flush fuel) hstep fun hopen => afterLocked_inv h hopen (Conn.flush_made fuel).ends
  | closeWithError err =>
    exact hcall (.closeWithError err) hstep fun hopen => enter_inv h hopen ⟨rfl, rfl, rfl, rfl, id⟩

/-! ## Closing is done once and to its end -/

/-- What is left of a call of `closeWithErrorWithoutLock`, in one. -/
def Closer.rest (cl : Closer) (c : Conn) : Conn :=
  match cl.stage with
  | .storing => c.closeWithErrorWithoutLock cl.err
  | .releasing i =>
    let c := { c with released := c.released ++ c.writeList.drop i, writeList := [] }
    let c :=
      if c.added && c.typ != .udpServer then { c with closes := c.closes ++ [c.closeErr] } else c
    { c with epoll := none }
  | .deleting =>
    let c :=
      if c.added && c.typ != .udpServer then { c with closes := c.closes ++ [c.closeErr] } else c
    { c with epoll := none }
  | .closing => { c with epoll := none }

/-- Runs of calls of `closeWithErrorWithoutLock` alone. -/
abbrev Proceeds (g : Engine) (k : Kernel) : State → State → Prop :=
  Reaches (step g k) fun _ e => ∃ n, e = .closer n

theorem proceeds_one (h : s.closers = [cl]) : Proceeds g k s (s.proceed 0 cl) := by
  refine Reaches.next .refl ⟨0, rfl⟩ ?_
  simp [step, h]

theorem completes_next {cl' : Closer} (h : s.closers = [cl])
    (hrest : cl'.rest (s.proceed 0 cl).conn =
      cl.rest s.conn)
    (hnext : ∃ u, Proceeds g k (s.proceed 0 cl) u ∧ u.closers = [] ∧
      u.conn = cl'.rest (s.proceed 0 cl).conn) :
    ∃ u, Proceeds g k s u ∧ u.closers = [] ∧ u.conn = cl.rest s.conn := by
  obtain ⟨u, hrun, hclosers, hconn⟩ := hnext
  exact ⟨u, (proceeds_one h).trans hrun, hclosers, hconn.trans hrest⟩

theorem closer_completes (h : s.closers = [cl]) :
    ∃ u, Proceeds g k s u ∧ u.closers = [] ∧ u.conn = cl.rest s.conn := by
  have hclosing : ∀ (s : State) err, s.closers = [{ err := err, stage := .closing }] →
      ∃ u, Proceeds g k s u ∧ u.closers = [] ∧
        u.conn = Closer.rest { err := err, stage := .closing } s.conn :=
    fun s err h => ⟨_, proceeds_one h, by simp [State.proceed, h], rfl⟩
  have hdeleting : ∀ (s : State) err, s.closers = [{ err := err, stage := .deleting }] →
      ∃ u, Proceeds g k s u ∧ u.closers = [] ∧
        u.conn = Closer.rest { err := err, stage := .deleting } s.conn :=
    fun s err h => completes_next h rfl (hclosing _ err (by simp [State.proceed, h]))
  have hreleased : ∀ (s : State) err i, s.conn.writeList.length ≤ i →
      s.closers = [{ err := err, stage := .releasing i }] →
      ∃ u, Proceeds g k s u ∧ u.closers = [] ∧
        u.conn = Closer.rest { err := err, stage := .releasing i } s.conn := by
    intro s err i hlen h
    have hend : s.conn.writeList[i]? = none := List.getElem?_eq_none_iff.2 hlen
    refine completes_next h ?_ (hdeleting _ err (by simp [State.proceed, hend, h]))
    simp [State.proceed, hend, Closer.rest, drop_eq_nil_iff.2 hlen]
  have hreleasing : ∀ (n : Nat) (s : State) err i, s.conn.writeList.length ≤ i + n →
      s.closers = [{ err := err, stage := .releasing i }] →
      ∃ u, Proceeds g k s u ∧ u.closers = [] ∧
        u.conn = Closer.rest { err := err, stage := .releasing i } s.conn := by
    intro n
    induction n with
    | zero => exact hreleased
    | succ n ih =>
      intro s err i hlen h
      rcases Nat.lt_or_ge i s.conn.writeList.length with hi | hi
      · have hentry := getElem?_eq_getElem hi
        refine completes_next h ?_ (ih _ err (i + 1) ?_ (by simp [State.proceed, hentry, h]))
        · simp only [State.proceed, hentry, Closer.rest, Conn.releaseToWrite]
          rw [drop_eq_getElem_cons hi, append_assoc, singleton_append]
        · simp only [State.proceed, hentry, Conn.releaseToWrite]
          omega
      · exact hreleased s err i hi h
  obtain ⟨err, stage⟩ := cl
  cases stage with
  | storing =>
    refine completes_next h rfl (hreleasing s.conn.writeList.length _ err 0 ?_ ?_)
    · exact Nat.le_add_left _ _
    · simp [State.proceed, h]
  | releasing i => exact hreleasing s.conn.writeList.length s err i (Nat.le_add_left _ _) h
  | deleting => exact hdeleting s err h
  | closing => exact hclosing s err h

/-- The calls of `Write`, `Writev` and `closeWithError`, with what they leave to
`closeWithErrorWithoutLock`, are those of a connection that nobody else uses. -/
theorem call_completes (hopen : s.conn.closed = false) (hclosers : s.closers = []) :
    (∀ b, ∃ u, Proceeds g k (s.call g k (.write b)) u ∧ u.closers = [] ∧
        u.conn = (s.conn.Write g k b).2) ∧
      (∀ bs, ∃ u, Proceeds g k (s.call g k (.writev bs)) u ∧ u.closers = [] ∧
        u.conn = (s.conn.Writev g k bs).2) ∧
      ∀ err, ∃ u, Proceeds g k (s.call g k (.closeWithError err)) u ∧ u.closers = [] ∧
        u.conn = s.conn.closeWithError err := by
  have henter : ∀ c err, ∃ u, Proceeds g k (s.enter c err) u ∧ u.closers = [] ∧
      u.conn = { c with closed := true }.closeWithErrorWithoutLock err := by
    intro c err
    have hone : (s.enter c err).closers = [{ err := err, stage := .storing }] := by
      simp [State.enter, hclosers]
    exact closer_completes hone
  have hafter : ∀ r : (Int × Option Err) × Conn, ∃ u, Proceeds g k (s.afterWrite g k r) u ∧
      u.closers = [] ∧ u.conn = (r.2.afterWrite g k r.1).2 := by
    rintro ⟨⟨n, err⟩, c⟩
    cases err with
    | none => exact ⟨_, .refl, hclosers, rfl⟩
    | some e =>
      unfold State.afterWrite Conn.afterWrite
      dsimp only
      split
      · exact ⟨_, .refl, hclosers, rfl⟩
      · exact henter c (some e)
  refine ⟨fun b => ?_, fun bs => ?_, fun err => ?_⟩
  · rw [Conn.Write, if_neg (Bool.eq_false_iff.1 hopen)]
    exact hafter (s.conn.write g k b)
  · unfold Conn.Writev
    rw [if_neg (Bool.eq_false_iff.1 hopen)]
    rcases bs with _ | ⟨b, _ | ⟨b', bs⟩⟩
    · exact hafter (s.conn.writev g k [])
    · exact hafter (s.conn.write g k b)
    · exact hafter (s.conn.writev g k (b :: b' :: bs))
  · rw [Conn.closeWithError, if_neg (Bool.eq_false_iff.1 hopen)]
    exact henter { s.conn with wTimer := false } err

/-- Closing is done once: one close of the descriptor, one call of `onClose`, with the error of the
call that set `closed`, and every entry that was queued is released once or waits to be. -/
structure Once (s : State) : Prop where
  entered : s.entered.length = if s.conn.closed then 1 else 0
  notified : s.conn.closes <+: s.entered
  descriptor : s.fdCloses ≤ s.conn.closes.length
  entries : (s.conn.released ++ s.waiting).map ToWrite.id = range s.conn.queued
  complete : s.conn.closed = true → s.closers = [] →
    s.conn.closes = s.entered ∧ s.fdCloses = 1 ∧ s.waiting = []

theorem Inv.once (h : Inv s) (hsound : Sound s) : Once s := by
  have hentries := hsound.entries
  cases h with
  | isOpen hclosed hclosers hentered hcloses hfd =>
    refine ⟨?_, ?_, ?_, hentries, fun hc => ?_⟩
    · simp [hentered, hclosed]
    · simp [hcloses]
    · simp [hfd]
    · rw [hclosed] at hc
      cases hc
  | closing cl hclosed hclosers hentered hdone hfd =>
    refine ⟨?_, ?_, ?_, hentries, fun _ hnil => ?_⟩
    · simp [hentered, hclosed]
    · rw [hdone.closes, hentered]
      split
      · exact prefix_rfl
      · exact nil_prefix
    · simp [hfd]
    · rw [hclosers] at hnil
      cases hnil
  | ended err hclosed hclosers hentered hcloses hlist hfd =>
    refine ⟨?_, ?_, ?_, hentries, fun _ _ => ⟨?_, hfd, ?_⟩⟩
    · simp [hentered, hclosed]
    · simp [hcloses, hentered]
    · simp [hfd, hcloses]
    · rw [hcloses, hentered]
    · simp [State.waiting, hclosers, hlist]

/-- Behind `closed` no call makes a system call, and `closed` stays set. -/
theorem step_closed {e : Event} (hclosed : s.conn.closed = true) (hstep : step g k s e = some u) :
    u.conn.closed = true ∧ u.conn.calls = s.conn.calls ∧ u.conn.accepted = s.conn.accepted := by
  have hcall : ∀ e', (if s.locked then none else if s.conn.closed then some s
      else some (s.call g k e')) = some u →
      u.conn.closed = true ∧ u.conn.calls = s.conn.calls ∧ u.conn.accepted = s.conn.accepted := by
    intro e' hsome
    split at hsome
    · cases hsome
    · cases hsome
      exact ⟨hclosed, rfl, rfl⟩
  cases e with
  | closer n =>
    obtain ⟨cl, -, rfl⟩ := Option.map_eq_some_iff.1 hstep
    unfold State.proceed
    split
    · exact ⟨hclosed, rfl, rfl⟩
    · split <;> exact ⟨hclosed, rfl, rfl⟩
    · dsimp only
      split <;> exact ⟨hclosed, rfl, rfl⟩
    · exact ⟨hclosed, rfl, rfl⟩
  | read => exact hcall .read hstep
  | write b => exact hcall (.write b) hstep
  | writev bs => exact hcall (.writev bs) hstep
  | sendfile fuel f remain => exact hcall (.sendfile fuel f remain) hstep
  | flush fuel => exact hcall (.flush fuel) hstep
  | closeWithError err => exact hcall (.closeWithError err) hstep

/-- However the calls on a connection that was added to a poller interleave, and whatever the kernel
answers, closing is done once, can always go on to its end, and is final. -/
theorem close_once_and_final (g : Engine) (k : Kernel) (c : Conn) (hc : Fresh c) (s : State)
    (h : Reaches (step g k) (fun _ _ => True) (start c) s) :
    Once s ∧ (∀ e u, step g k s e = some u → s.conn.closed = true →
        u.conn.closed = true ∧ u.conn.calls = s.conn.calls ∧ u.conn.accepted = s.conn.accepted) ∧
      ∃ u, Proceeds g k s u ∧ u.closers = [] := by
  obtain ⟨hinv, hsound⟩ : Inv s ∧ Sound s :=
    h.invariant ⟨start_inv hc, start_sound hc⟩ fun _ _ _ ht _ hstep => step_inv ht hstep
  refine ⟨hinv.once hsound, fun e u hstep hclosed => step_closed hclosed hstep, ?_⟩
  cases hinv with
  | isOpen hclosed hclosers => exact ⟨s, .refl, hclosers⟩
  | closing cl hclosed hclosers =>
    obtain ⟨u, hrun, hnil, -⟩ := closer_completes hclosers
    exact ⟨u, hrun, hnil⟩
  | ended err hclosed hclosers => exact ⟨s, .refl, hclosers⟩

def failingKernel : Kernel :=
  { write := fun n => if n = 0 then .ok 2 else .error (.other 104)
    sendto := fun _ => none, sendfile := fun _ => .error .eagain, dup := fun _ => .ok 9
    epollCtl := fun _ => none }

/-- What is left of a write waits; the connection is closed with an error while a flush fails and a
timer goes off. -/
def closingRun : List Event :=
  [.write [1, 2, 3], .closeWithError (some (.text [7])), .flush 5, .closer 0, .closeWithError none,
    .closer 0, .read, .closer 0, .closer 0, .write [4], .closer 0]

theorem close_once_and_final_raced :
    let g : Engine := { maxWriteBufferSize := 0, onWrittenSize := false, edgeTriggered := false
                        oneshot := false, maxOpenFiles := 10
                        bodyAllocator := { cap := fun n => n, contents := fun _ => 0 } }
    let c := { newConn 5 .tcp with added := true, epoll := some .read }
    ∃ s, Reaches (step g failingKernel) (fun _ _ => True) (start c) s ∧
      s.conn.closes = [some (.text [7])] ∧ s.fdCloses = 1 ∧ s.conn.released.length = 1 ∧
        Once s := by
  intro g c
  obtain ⟨s, hrun, hcloses, hfd, hreleased⟩ :
      ∃ s, closingRun.foldlM (guarded (step g failingKernel) fun _ _ => true) (start c) = some s ∧
        s.conn.closes = [some (.text [7])] ∧ s.fdCloses = 1 ∧ s.conn.released.length = 1 :=
    ends_of_any (by decide +kernel)
  have hreach : Reaches (step g failingKernel) (fun _ _ => True) (start c) s :=
    (Reaches.of_foldlM hrun).mono fun _ _ _ => trivial
  have hfresh : Fresh c := ⟨rfl, rfl, rfl, rfl, rfl, rfl, rfl⟩
  exact ⟨s, hreach, hcloses, hfd, hreleased,
    (close_once_and_final g failingKernel c hfresh s hreach).1⟩

end Closing

end Nbio.Net
