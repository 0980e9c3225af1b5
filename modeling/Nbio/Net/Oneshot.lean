import Nbio.Net.AsyncRead
import Nbio.Net.Poller

/-!
# Asynchronous reading with EPOLLONESHOT

With EPOLLET and EPOLLONESHOT the delivery of an event disarms the descriptor, and every
`EPOLL_CTL_MOD` arms it again for the events it asks for; reading is always among them.  `AsyncRead`
counts on this: it submits a task for every reading event and does not look whether there is one
in flight.

`Armed` is a connection with what its descriptor is armed for, and the methods that call
`EPOLL_CTL_MOD` are given for it; to the connection itself they do what they do in `Nbio.Net.Conn`
(`Write_conn`, `flush_conn`).  A task is in flight from `AsyncRead` to its `EPOLL_CTL_MOD` or
to the error that ends it.
-/

namespace Nbio.Net

open Nbio.Go
open Nbio.Lib

structure Armed where
  conn : Conn
  armed : Option Interest
deriving DecidableEq, Repr

namespace Armed

variable (g : Engine) (k : Kernel)

def pollerModWrite (o : Armed) : Armed :=
  match o.conn.pollerModWrite g k with
  | (none, c) => ⟨c, some .readWrite⟩
  | (some _, c) => ⟨c, o.armed⟩

def pollerResetRead (o : Armed) : Armed :=
  match o.conn.pollerResetRead g k with
  | (none, c) => ⟨c, some .read⟩
  | (some _, c) => ⟨c, o.armed⟩

def modWrite (o : Armed) : Armed :=
  if !o.conn.closed && !o.conn.isWAdded then
    pollerModWrite g k { o with conn := { o.conn with isWAdded := true } }
  else o

def resetRead (o : Armed) : Armed :=
  if !o.conn.closed && o.conn.isWAdded then
    pollerResetRead g k { o with conn := { o.conn with isWAdded := false } }
  else o

/-- The end of a call that has failed; closing the descriptor takes it out of epoll. -/
def fail (o : Armed) (err : Err) : Armed := ⟨o.conn.fail err, none⟩

def closeWithError (o : Armed) (err : Option Err) : Armed :=
  if o.conn.closed then o else ⟨o.conn.closeWithError err, none⟩

/-- The end of `Write`, given what `write` returned. -/
def afterWrite (o : Armed) (r : Int × Option Err) : Armed :=
  let settle : Armed :=
    if o.conn.writeList = [] then { o with conn := { o.conn with wTimer := false } }
    else o.modWrite g k
  match r.2 with
  | some e => if e.isRetry then settle else o.fail e
  | none => settle

def Write (o : Armed) (b : Bytes) : Armed :=
  if o.conn.closed then o
  else
    let (r, c) := o.conn.write g k b
    afterWrite g k { o with conn := c } r

def flushLoop : Nat → Armed → Conn.Outcome × Armed
  | 0, o => (.running, o)
  | fuel + 1, o =>
    match o.conn.writeList with
    | [] => (.returns 0 none, o.resetRead g k)
    | head :: rest =>
      match o.conn.flushHead g k head rest with
      | none => (.panics, o)
      | some (none, c) => flushLoop fuel { o with conn := c }
      | some (some .eintr, c) => flushLoop fuel { o with conn := c }
      | some (some .eagain, c) =>
        let o := { o with conn := c }
        (.returns 0 none, if g.isOneshot then o.pollerModWrite g k else o)
      | some (some e, c) =>
        (.returns 0 (some (.errno e)), ({ o with conn := c } : Armed).fail (.errno e))

def flush (fuel : Nat) (o : Armed) : Conn.Outcome × Armed :=
  if o.conn.closed then (.returns 0 (some netErrClosed), o)
  else if o.conn.writeList = [] then (.returns 0 none, o)
  else o.flushLoop g k fuel

/-- What `readWriteLoop` does behind the `onConnected` callback. -/
def connectEnd (o : Armed) : Armed :=
  resetRead g k { o with conn := { o.conn with onConnected := false } }

/-! ## What the methods do to the connection -/

variable {g k} {o : Armed}

theorem pollerModWrite_conn : (o.pollerModWrite g k).conn = (o.conn.pollerModWrite g k).2 := by
  unfold pollerModWrite
  rcases o.conn.pollerModWrite g k with ⟨_ | e, c⟩ <;> rfl

theorem pollerResetRead_conn : (o.pollerResetRead g k).conn = (o.conn.pollerResetRead g k).2 := by
  unfold pollerResetRead
  rcases o.conn.pollerResetRead g k with ⟨_ | e, c⟩ <;> rfl

theorem modWrite_conn : (o.modWrite g k).conn = o.conn.modWrite g k := by
  unfold modWrite Conn.modWrite
  split
  · exact pollerModWrite_conn
  · rfl

theorem resetRead_conn : (o.resetRead g k).conn = o.conn.resetRead g k := by
  unfold resetRead Conn.resetRead
  split
  · exact pollerResetRead_conn
  · rfl

theorem afterWrite_conn (r : Int × Option Err) :
    (o.afterWrite g k r).conn = (o.conn.afterWrite g k r).2 := by
  have hsettle : (if o.conn.writeList = [] then { o with conn := { o.conn with wTimer := false } }
      else o.modWrite g k).conn = o.conn.settle g k := by
    unfold Conn.settle
    split
    · rfl
    · exact modWrite_conn
  unfold afterWrite Conn.afterWrite
  rcases r with ⟨n, _ | e⟩
  · exact hsettle
  · dsimp only
    split
    · exact hsettle
    · rfl

theorem Write_conn (b : Bytes) : (o.Write g k b).conn = (o.conn.Write g k b).2 := by
  unfold Write Conn.Write
  split
  · rfl
  · exact afterWrite_conn _

theorem flushLoop_conn (fuel : Nat) :
    ((o.flushLoop g k fuel).1, (o.flushLoop g k fuel).2.conn) = o.conn.flushLoop g k fuel := by
  induction fuel generalizing o with
  | zero => rfl
  | succ fuel ih =>
    unfold flushLoop Conn.flushLoop
    cases hlist : o.conn.writeList with
    | nil => simp only [resetRead_conn]
    | cons head rest =>
      dsimp only
      cases hhead : o.conn.flushHead g k head rest with
      | none => rfl
      | some r =>
        obtain ⟨err, c⟩ := r
        cases err with
        | none => exact ih
        | some e =>
          cases e with
          | eintr => exact ih
          | eagain =>
            dsimp only
            split
            · rw [pollerModWrite_conn]
            · rfl
          | eexist => rfl
          | enoent => rfl
          | other code => rfl

theorem flush_conn (fuel : Nat) :
    ((o.flush g k fuel).1, (o.flush g k fuel).2.conn) = o.conn.flush g k fuel := by
  unfold flush Conn.flush
  split
  · rfl
  split
  · rfl
  · exact flushLoop_conn fuel

end Armed

namespace Oneshot

/-! ## The poller, the tasks and the writers -/

/-- Where the poller is with an event: it has none, it is before the part for writing, it is before
`AsyncRead`. -/
inductive Poller where
  | idle
  | writing (read : Bool)
  | reading
deriving DecidableEq, Repr

/-- The poller has an event for which it will call `AsyncRead`. -/
def Poller.willRead : Poller → Bool
  | .idle => false
  | .writing read => read
  | .reading => true

/-- Where a task is: in its pass, behind it, and in `ResetPollerEvent` with what it has found. -/
inductive Task where
  | reading
  | passed
  | resetting (write : Bool)
deriving DecidableEq, Repr

structure State where
  on : Armed
  poller : Poller
  tasks : List Task
deriving DecidableEq, Repr

def init (c : Conn) : State := { on := ⟨c, c.epoll⟩, poller := .idle, tasks := [] }

inductive Event where
  /-- `EpollWait` returns the descriptor; an event may also be for neither. -/
  | deliver (read write : Bool)
  | flush (fuel : Nat)
  /-- The end of the `onConnected` callback, which the poller calls in place of `flush`. -/
  | connected
  | asyncRead
  /-- Task `n` makes its reads; an error closes the connection and ends the task. -/
  | read (n : Nat) (reads : Nat → Read)
  /-- Task `n` looks at the connection in `ResetPollerEvent`. -/
  | test (n : Nat)
  | reset (n : Nat)
  | write (b : Bytes)
  | close (err : Option Err)

/-- One step; `none` where the event cannot happen, or is a call that does not return. -/
def step (g : Engine) (k : Kernel) (rd : Reader) (s : State) : Event → Option State
  | .deliver read write =>
    match s.poller, s.on.armed with
    | .idle, some i =>
      if write && i = .read then none
      else
        some { s with
          on := { s.on with armed := none }
          poller := if write then .writing read else if read then .reading else .idle }
    | _, _ => none
  | .flush fuel =>
    match s.poller with
    | .writing read =>
      if s.on.conn.onConnected then none
      else
        match s.on.flush g k fuel with
        | (.returns _ _, o) => some { s with on := o, poller := if read then .reading else .idle }
        | _ => none
    | _ => none
  | .connected =>
    match s.poller with
    | .writing read =>
      if s.on.conn.onConnected then
        some { s with on := s.on.connectEnd g k, poller := if read then .reading else .idle }
      else none
    | _ => none
  | .asyncRead =>
    match s.poller with
    | .reading =>
      if g.isOneshot then some { s with poller := .idle, tasks := s.tasks ++ [Task.reading] }
      else none
    | _ => none
  | .read n reads =>
    match s.tasks[n]?, rd.pass reads with
    | some .reading, none => some { s with tasks := s.tasks.set n .passed }
    | some .reading, some err =>
      some { s with on := s.on.closeWithError (some err), tasks := s.tasks.eraseIdx n }
    | _, _ => none
  | .test n =>
    match s.tasks[n]? with
    | some .passed =>
      if g.isOneshot && !s.on.conn.closed then
        some { s with tasks := s.tasks.set n (.resetting (s.on.conn.writeList ≠ [])) }
      else some { s with tasks := s.tasks.eraseIdx n }
    | _ => none
  | .reset n =>
    match s.tasks[n]? with
    | some (.resetting write) =>
      some { s with
        on := if write then s.on.pollerModWrite g k else s.on.pollerResetRead g k
        tasks := s.tasks.eraseIdx n }
    | _ => none
  | .write b => some { s with on := s.on.Write g k b }
  | .close err => some { s with on := s.on.closeWithError err }

/-! ## A single reader -/

def State.Unread (s : State) : Prop := s.tasks = [] ∧ s.poller.willRead = false

/-- Only a task arms the descriptor while one is in flight or about to be submitted: then a `Write`
leaves nothing behind or finds `isWAdded`, and the poller neither flushes nor resets. -/
def Timely (g : Engine) (k : Kernel) (s : State) : Event → Prop
  | .write b =>
    s.Unread ∨ s.on.conn.isWAdded = true ∨ (s.on.conn.write g k b).2.writeList = []
  | .flush _ => s.Unread ∨ s.on.conn.closed = true ∨ s.on.conn.writeList = []
  | .connected => s.Unread ∨ s.on.conn.closed = true ∨ s.on.conn.isWAdded = false
  | _ => True

instance (s : State) : Decidable s.Unread := inferInstanceAs (Decidable (_ ∧ _))

instance (g : Engine) (k : Kernel) (s : State) : DecidablePred (Timely g k s)
  | .write _ | .flush _ | .connected => inferInstanceAs (Decidable (_ ∨ _ ∨ _))
  | .deliver _ _ | .asyncRead | .read _ _ | .test _ | .reset _ | .close _ =>
    inferInstanceAs (Decidable True)

/-- The descriptor is armed only while nobody reads, and there is one task at most. -/
structure Inv (s : State) : Prop where
  armed : s.on.armed ≠ none → s.Unread
  pending : s.poller.willRead = true → s.tasks = []
  alone : s.tasks.length ≤ 1

variable {g : Engine} {k : Kernel} {rd : Reader} {s u : State} {n : Nat} {t : Task}

theorem init_inv (c : Conn) : Inv (init c) where
  armed _ := ⟨rfl, rfl⟩
  pending _ := rfl
  alone := Nat.zero_le 1

theorem Inv.task (h : Inv s) (ht : s.tasks[n]? = some t) :
    n = 0 ∧ s.tasks = [t] ∧ s.poller.willRead = false ∧ s.on.armed = none := by
  have hne : s.tasks ≠ [] := by
    intro hnil
    rw [hnil] at ht
    cases ht
  have hread : s.poller.willRead = false := by
    by_contra hread
    exact hne (h.pending (by simpa using hread))
  have harmed : s.on.armed = none := by
    by_contra harmed
    exact hne (h.armed harmed).1
  obtain ⟨t', htasks⟩ : ∃ t', s.tasks = [t'] := by
    apply List.length_eq_one_iff.1
    have hpos := List.length_pos_of_ne_nil hne
    have halone := h.alone
    omega
  rw [htasks] at ht
  cases n with
  | zero =>
    obtain rfl : t' = t := Option.some.inj ht
    exact ⟨rfl, htasks, hread, harmed⟩
  | succ n => cases ht

/-- A call, and a step of the poller that submits nothing, keep the invariant if they do not arm the
descriptor at the wrong time. -/
theorem Inv.update (h : Inv s) {o : Armed} {p : Poller} (hp : p.willRead = s.poller.willRead)
    (hon : s.Unread ∨ (o.armed ≠ none → s.on.armed ≠ none)) :
    Inv { s with on := o, poller := p } where
  armed harmed := by
    have hunread : s.Unread := by
      rcases hon with hunread | hon
      · exact hunread
      · exact h.armed (hon harmed)
    exact ⟨hunread.1, hp.trans hunread.2⟩
  pending hread := h.pending (hp.symm.trans hread)
  alone := h.alone

theorem Inv.endTask (h : Inv s) (ht : s.tasks[n]? = some t) (o : Armed) :
    Inv { s with on := o, tasks := s.tasks.eraseIdx n } := by
  obtain ⟨rfl, htasks, hread, -⟩ := h.task ht
  have hnil : s.tasks.eraseIdx 0 = [] := by rw [htasks]; rfl
  refine ⟨fun _ => ⟨hnil, hread⟩, fun _ => hnil, ?_⟩
  simp [hnil]

theorem Inv.setTask (h : Inv s) (ht : s.tasks[n]? = some t) (t' : Task) :
    Inv { s with tasks := s.tasks.set n t' } := by
  obtain ⟨rfl, htasks, hread, harmed⟩ := h.task ht
  refine ⟨fun hne => absurd harmed hne, fun hpending => ?_, ?_⟩
  · rw [hread] at hpending
    cases hpending
  · simp [htasks]

theorem closeWithError_armed {o : Armed} {err : Option Err}
    (h : (o.closeWithError err).armed ≠ none) : o.armed ≠ none := by
  unfold Armed.closeWithError at h
  split at h
  · exact h
  · exact absurd rfl h

theorem Write_armed {o : Armed} {b : Bytes}
    (h : o.conn.isWAdded = true ∨ (o.conn.write g k b).2.writeList = [])
    (harmed : (o.Write g k b).armed ≠ none) : o.armed ≠ none := by
  have hgrows := Conn.write_grows (g := g) (k := k) (c := o.conn) b
  unfold Armed.Write at harmed
  split at harmed
  · exact harmed
  generalize o.conn.write g k b = w at h harmed hgrows
  obtain ⟨⟨m, err⟩, c⟩ := w
  -- `modWrite` does nothing about a connection that has its interest
  have hsettle :
      (if c.writeList = [] then ({ conn := { c with wTimer := false }, armed := o.armed } : Armed)
      else Armed.modWrite g k { conn := c, armed := o.armed }).armed = o.armed := by
    split
    · rfl
    · next hne =>
      have hadd : c.isWAdded = true := by
        rw [hgrows.isWAdded]
        exact h.resolve_right hne
      unfold Armed.modWrite
      simp [hadd]
  unfold Armed.afterWrite at harmed
  dsimp only at harmed
  split at harmed
  · split at harmed
    · exact hsettle ▸ harmed
    · exact absurd rfl harmed
  · exact hsettle ▸ harmed

theorem flush_armed (g : Engine) (k : Kernel) (fuel : Nat) {o : Armed}
    (h : o.conn.closed = true ∨ o.conn.writeList = []) :
    (o.flush g k fuel).2 = o := by
  unfold Armed.flush
  split
  · rfl
  · next hopen => rw [if_pos (h.resolve_left hopen)]

theorem connectEnd_armed {o : Armed} (h : o.conn.closed = true ∨ o.conn.isWAdded = false) :
    (o.connectEnd g k).armed = o.armed := by
  unfold Armed.connectEnd Armed.resetRead
  rcases h with h | h <;> simp [h]

theorem step_inv (h : Inv s) {e : Event} (htimely : Timely g k s e)
    (hstep : step g k rd s e = some u) : Inv u := by
  cases e with
  | deliver read write =>
    rw [step] at hstep
    split at hstep
    · next i hpoller harmed =>
      split at hstep
      · cases hstep
      · cases hstep
        obtain ⟨htasks, -⟩ := h.armed (by rw [harmed]; exact Option.some_ne_none i)
        exact ⟨fun hne => absurd rfl hne, fun _ => htasks, h.alone⟩
    · cases hstep
  | flush fuel =>
    rw [step] at hstep
    split at hstep
    · next read hpoller =>
      split at hstep
      · cases hstep
      split at hstep
      · next m err o hflush =>
        cases hstep
        apply h.update
        · rw [hpoller]
          cases read <;> rfl
        · rcases htimely with hunread | hnothing
          · exact .inl hunread
          · right
            obtain rfl : o = s.on := by
              rw [← flush_armed g k fuel hnothing, hflush]
            exact id
      · cases hstep
    · cases hstep
  | connected =>
    rw [step] at hstep
    split at hstep
    · next read hpoller =>
      split at hstep
      · cases hstep
        apply h.update
        · rw [hpoller]
          cases read <;> rfl
        · rcases htimely with hunread | hnothing
          · exact .inl hunread
          · right
            rw [connectEnd_armed hnothing]
            exact id
      · cases hstep
    · cases hstep
  | asyncRead =>
    rw [step] at hstep
    split at hstep
    · next hpoller =>
      split at hstep
      · cases hstep
        have hread : s.poller.willRead = true := by rw [hpoller]; rfl
        have htasks := h.pending hread
        refine ⟨fun harmed => ?_, nofun, ?_⟩
        · have hunread := (h.armed harmed).2
          rw [hread] at hunread
          cases hunread
        · simp [htasks]
      · cases hstep
    · cases hstep
  | read n reads =>
    rw [step] at hstep
    split at hstep
    · next ht _ =>
      cases hstep
      exact h.setTask ht .passed
    · next ht _ =>
      cases hstep
      exact h.endTask ht _
    · cases hstep
  | test n =>
    rw [step] at hstep
    split at hstep
    · next ht =>
      split at hstep
      · cases hstep
        exact h.setTask ht _
      · cases hstep
        exact h.endTask ht s.on
    · cases hstep
  | reset n =>
    rw [step] at hstep
    split at hstep
    · next write ht =>
      cases hstep
      exact h.endTask ht _
    · cases hstep
  | write b =>
    cases hstep
    apply h.update rfl
    rcases htimely with hunread | hnothing
    · exact .inl hunread
    · exact .inr (Write_armed hnothing)
  | close err =>
    cases hstep
    exact h.update rfl (.inr closeWithError_armed)

/-- As long as nobody but a task arms the descriptor while one is in flight or about to be
submitted, a connection has one task at most. -/
theorem single_reader (g : Engine) (k : Kernel) (rd : Reader) (c : Conn) (s : State)
    (h : Reaches (step g k rd) (Timely g k) (init c) s) : s.tasks.length ≤ 1 := by
  have hinv : Inv s :=
    h.invariant (init_inv c) fun _ _ _ ht htimely hstep => step_inv ht htimely hstep
  exact hinv.alone

def oneshotEngine : Engine := { plainEngine with edgeTriggered := true, oneshot := true }

def accepted : Conn := { newConn 7 .tcp with epoll := some .read }

/-- Two of five bytes wait when a reading event comes, and another `Write` is called while its task
is in flight. -/
def writtenBefore : List Event :=
  [.write (ascii "hello"), .deliver true false, .asyncRead, .write (ascii "!")]

theorem single_reader_written_before :
    ∃ s, Reaches (step oneshotEngine shortKernel ReadEvents.plainReader)
        (Timely oneshotEngine shortKernel) (init accepted) s ∧
      s.tasks = [.reading] ∧ s.on.armed = none ∧ s.tasks.length ≤ 1 := by
  obtain ⟨s, hrun, htasks, harmed⟩ :
      ∃ s, writtenBefore.foldlM (guarded (step oneshotEngine shortKernel ReadEvents.plainReader)
          fun s e => decide (Timely oneshotEngine shortKernel s e)) (init accepted) = some s ∧
        s.tasks = [.reading] ∧ s.on.armed = none :=
    ⟨_, rfl, rfl, rfl⟩
  have hreach : Reaches (step oneshotEngine shortKernel ReadEvents.plainReader)
      (Timely oneshotEngine shortKernel) (init accepted) s :=
    (Reaches.of_foldlM hrun).mono fun _ _ h => of_decide_eq_true h
  exact ⟨s, hreach, htasks, harmed, single_reader _ _ _ _ s hreach⟩

def writtenDuring : List Event :=
  [.deliver true false, .asyncRead, .write (ascii "hello"), .deliver true false, .asyncRead]

/-- An event for reading and writing: the poller flushes before it calls `AsyncRead`. -/
def flushedBefore : List Event :=
  [.write (ascii "hello"), .deliver true true, .flush 1, .asyncRead, .deliver true false,
    .asyncRead]

/-- Both arm the descriptor for reading, and the next reading event gets a second task. -/
theorem armed_for_writing_is_armed_for_reading :
    (∃ s, writtenDuring.foldlM (step oneshotEngine shortKernel ReadEvents.plainReader)
      (init accepted) = some s ∧ s.tasks = [.reading, .reading] ∧ s.on.conn.closed = false) ∧
    ∃ s, flushedBefore.foldlM (step oneshotEngine shortKernel ReadEvents.plainReader)
      (init accepted) = some s ∧ s.tasks = [.reading, .reading] ∧ s.on.conn.closed = false :=
  ⟨⟨_, rfl, rfl, rfl⟩, _, rfl, rfl, rfl⟩

end Oneshot

end Nbio.Net
