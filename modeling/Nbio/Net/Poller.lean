import Nbio.Lib.Machine
import Nbio.Net.Parts

/-!
# Write interest of a connection in its poller

The life of one connection in a level-triggered poller: `addConn`, whose `onOpen` callback runs
before the descriptor is registered; `addDialer`; write events, of which the first on a dialled
connection runs the `onConnected` callback and then resets the registration to reading; and the
calls of the write path, which may be made inside the callbacks or outside.

Data that waits must have write interest, or it waits for ever.  `resetRead` behind the
`onConnected` callback and `addRead` behind the `onOpen` callback do not look at the list of
what is to be written: `pending_has_interest` holds for the runs where it is empty there.
-/

namespace Nbio.Net

open Nbio.Go Nbio.Lib Option

namespace Conn

variable (g : Engine) (k : Kernel)

/-- The error of `addConn` and `addDialer` for a descriptor that has no place in the table. -/
def tooManyOpenFiles (c : Conn) : Err :=
  .text (ascii s!"too many open files, fd[{c.fd}] >= MaxOpenFiles[{g.maxOpenFiles}]")

/-- `addConn` up to its callback: the error. -/
def addConn (c : Conn) : Option Err × Conn :=
  if g.maxOpenFiles ≤ c.fd then
    (some (c.tooManyOpenFiles g), c.closeWithError (some (c.tooManyOpenFiles g)))
  else (none, { c with added := true })

def addConnEnd (c : Conn) : Option Err × Conn :=
  match c.pollerAddRead g k with
  | (some e, c) => (some (.errno e), c.closeWithError (some (.errno e)))
  | (none, c) => (none, c)

def addDialer (c : Conn) : Option Err × Conn :=
  if g.maxOpenFiles ≤ c.fd then
    (some (c.tooManyOpenFiles g), c.closeWithError (some (c.tooManyOpenFiles g)))
  else
    match { c with added := true, isWAdded := true }.pollerAddReadWrite k with
    | (some e, c) => (some (.errno e), c.closeWithError (some (.errno e)))
    | (none, c) => (none, c)

/-- What `readWriteLoop` does behind the `onConnected` callback. -/
def connectEnd (c : Conn) : Conn := { c with onConnected := false }.resetRead g k

end Conn

/-- Where the poller is with a connection. -/
inductive Phase where
  /-- It does not know it yet. -/
  | new
  /-- `addConn` is running its callback. -/
  | opening
  /-- It is doing nothing about it. -/
  | idle
  /-- `readWriteLoop` is running the `onConnected` callback. -/
  | connecting
deriving DecidableEq, Repr

structure Polled where
  conn : Conn
  phase : Phase
deriving DecidableEq, Repr

inductive Event where
  | addConn
  | opened
  | addDialer (inprogress : Bool)
  /-- A write event; `fuel` bounds the loop of `flush`. -/
  | writable (fuel : Nat)
  | connected
  | write (b : Bytes)
  | writev (bs : List Bytes)
  | sendfile (f : Option Conn.File) (remain : Int) (fuel : Nat)
  | close (err : Option Err)
deriving DecidableEq, Repr

def returned (phase : Phase) : Conn.Outcome × Conn → Option Polled
  | (.returns _ _, c) => some ⟨c, phase⟩
  | _ => none

/-- One event; `none` if it cannot happen in this state, or is a call that does not return. -/
def step (g : Engine) (k : Kernel) (s : Polled) : Event → Option Polled
  | .addConn =>
    if s.phase = .new then
      match s.conn.addConn g with
      | (none, c) => some ⟨c, .opening⟩
      | (some _, c) => some ⟨c, .idle⟩
    else none
  | .opened =>
    if s.phase = .opening then some ⟨(s.conn.addConnEnd g k).2, .idle⟩ else none
  | .addDialer inprogress =>
    if s.phase = .new then
      some ⟨({ s.conn with onConnected := inprogress }.addDialer g k).2, .idle⟩
    else none
  | .writable fuel =>
    if s.phase = .idle then
      if s.conn.onConnected then some ⟨s.conn, .connecting⟩
      else returned .idle (s.conn.flush g k fuel)
    else none
  | .connected =>
    if s.phase = .connecting then some ⟨s.conn.connectEnd g k, .idle⟩ else none
  | .write b => if s.phase = .new then none else some ⟨(s.conn.Write g k b).2, s.phase⟩
  | .writev bs => if s.phase = .new then none else some ⟨(s.conn.Writev g k bs).2, s.phase⟩
  | .sendfile f remain fuel =>
    if s.phase = .new then none else returned s.phase (s.conn.Sendfile g k fuel f remain)
  | .close err => some ⟨s.conn.closeWithError err, s.phase⟩

namespace Conn

/-! ## What the calls do to the registration -/

/-- The registration is what `isWAdded` says, if there is one, and what waits has write interest. -/
structure Interested (registered : Bool) (c : Conn) : Prop where
  epoll : c.epoll =
    if registered then some (if c.isWAdded then .readWrite else .read) else none
  waits : c.writeList ≠ [] → c.isWAdded = true
  early : registered = false → c.isWAdded = true → c.writeList ≠ []

def OpenInterested (registered : Bool) (c : Conn) : Prop :=
  c.closed = false → c.Interested registered

/-- `c'` has the registration of `c`, and nothing has left the list. -/
structure Grows (c c' : Conn) : Prop where
  closed : c'.closed = c.closed
  isWAdded : c'.isWAdded = c.isWAdded
  epoll : c'.epoll = c.epoll
  list : c'.writeList = [] → c.writeList = []

/-- An iteration of `flush` leaves the registration alone. -/
structure SameInterest (c c' : Conn) : Prop where
  closed : c'.closed = c.closed
  isWAdded : c'.isWAdded = c.isWAdded
  epoll : c'.epoll = c.epoll

variable {g : Engine} {k : Kernel} {c c' c'' : Conn} {registered : Bool}

theorem Grows.interested (h : Grows c c') (hlist : c'.writeList ≠ [] → c.writeList ≠ [])
    (hc : c.OpenInterested registered) : c'.OpenInterested registered := by
  intro hopen
  obtain ⟨hepoll, hwaits, hearly⟩ := hc (h.closed ▸ hopen)
  constructor
  · rw [h.epoll, h.isWAdded, hepoll]
  · intro hne
    rw [h.isWAdded]
    exact hwaits (hlist hne)
  · intro hreg hadd hnil
    rw [h.isWAdded] at hadd
    exact hearly hreg hadd (h.list hnil)

theorem interested_of_closed (h : c.closed = true) : c.OpenInterested registered := by
  intro hopen
  rw [h] at hopen
  cases hopen

theorem newToWriteBuf_ne (b : Bytes) : (c.newToWriteBuf g b).writeList ≠ [] := by
  obtain ⟨_, -, heq⟩ | ⟨_, _, _, _, -, -, -, heq⟩ := newToWriteBuf_cases g c b <;> simp [heq]

theorem newToWriteBuf_same (b : Bytes) : SameInterest c (c.newToWriteBuf g b) := by
  obtain ⟨_, -, heq⟩ | ⟨_, _, _, _, -, -, -, heq⟩ := newToWriteBuf_cases g c b <;> rw [heq] <;>
    exact ⟨rfl, rfl, rfl⟩

theorem reportWritten_interest (n : Nat) : SameInterest c (c.reportWritten g n) := by
  unfold reportWritten
  split <;> exact ⟨rfl, rfl, rfl⟩

theorem Parts.sameInterest {flushes : Bool} {q : Nat} {u : Int} (h : Parts g flushes c c' q u) :
    SameInterest c c' := by
  induction h with
  | refl c => exact ⟨rfl, rfl, rfl⟩
  | part h =>
    cases h with
    | reported n => exact reportWritten_interest n
    | queued b => exact newToWriteBuf_same b
    | called | sent _ | queuedFile _ _ _ _ | shrunk _ _ _ _ _ _ | released _ _ _ _ =>
      exact ⟨rfl, rfl, rfl⟩
  | trans _ _ ih ih' =>
    exact ⟨ih'.closed.trans ih.closed, ih'.isWAdded.trans ih.isWAdded, ih'.epoll.trans ih.epoll⟩
  | mono _ _ ih => exact ih

theorem Parts.grows {q : Nat} {u : Int} (h : Parts g false c c' q u) : Grows c c' := by
  obtain ⟨hclosed, hadd, hepoll⟩ := h.sameInterest
  refine ⟨hclosed, hadd, hepoll, ?_⟩
  clear hclosed hadd hepoll
  induction h with
  | refl c => exact id
  | part h =>
    cases h with
    | called | sent _ => exact id
    | reported n => rw [reportWritten_writeList]; exact id
    | queued b => exact fun hnil => absurd hnil (newToWriteBuf_ne b)
    | queuedFile _ _ _ _ => exact fun hnil => by simp [newToWriteFile] at hnil
  | trans _ _ ih ih' => exact ih ∘ ih'
  | mono _ _ ih => exact ih

theorem write_grows (b : Bytes) : Grows c (c.write g k b).2 := by
  obtain ⟨_, -, h⟩ := write_parts b
  exact h.grows

/-! ## Level-triggered epoll -/

/-- The poller is level-triggered, and `epoll_ctl` does what it is asked to. -/
structure Level (g : Engine) (k : Kernel) : Prop where
  level : g.edgeTriggered = false
  ctl : ∀ i, k.epollCtl i = none

section

variable (hl : Level g k)

include hl

theorem Level.pollerModWrite (c : Conn) :
    (c.pollerModWrite g k).2 =
      { c with calls := c.calls + 1, epoll := c.epoll.map fun _ => .readWrite } := by
  rw [Conn.pollerModWrite, hl.level, epollMod, hl.ctl]
  cases h : c.epoll with
  | none => simp
  | some i => simp

theorem Level.pollerResetRead (c : Conn) :
    (c.pollerResetRead g k).2 =
      { c with calls := c.calls + 1, epoll := c.epoll.map fun _ => .read } := by
  rw [Conn.pollerResetRead, hl.level, epollMod, hl.ctl]
  cases h : c.epoll with
  | none => simp
  | some i => simp

theorem modWrite_interested (h : Grows c c') (hne : c'.writeList ≠ [])
    (hc : c.OpenInterested registered) : (c'.modWrite g k).OpenInterested registered := by
  unfold modWrite
  cases hclosed : c'.closed with
  | true => exact interested_of_closed hclosed
  | false =>
    obtain ⟨hepoll, -, -⟩ := hc (h.closed ▸ hclosed)
    rw [← h.epoll, ← h.isWAdded] at hepoll
    cases hadd : c'.isWAdded with
    | true =>
      exact fun _ => ⟨by simpa [hadd] using hepoll, fun _ => hadd, fun _ _ => hne⟩
    | false =>
      rw [Bool.and_self, hl.pollerModWrite]
      refine fun _ => ⟨?_, fun _ => rfl, fun _ _ => hne⟩
      cases registered <;> simp [hepoll]

theorem resetRead_interested (hnil : c.writeList = []) (hc : c.OpenInterested true) :
    (c.resetRead g k).OpenInterested true := by
  unfold resetRead
  cases hclosed : c.closed with
  | true => exact interested_of_closed hclosed
  | false =>
    obtain ⟨hepoll, -, -⟩ := hc hclosed
    cases hadd : c.isWAdded with
    | false =>
      exact fun _ => ⟨by simpa [hadd] using hepoll, fun hne => absurd hnil hne, nofun⟩
    | true =>
      rw [Bool.not_false, hl.pollerResetRead]
      refine fun _ => ⟨?_, fun hne => absurd hnil hne, nofun⟩
      simp [hepoll]

theorem settle_interested (h : Grows c c') (hc : c.OpenInterested registered) :
    (c'.settle g k).OpenInterested registered := by
  unfold settle
  split
  · next hnil =>
    have h' : Grows c { c' with wTimer := false } := ⟨h.closed, h.isWAdded, h.epoll, h.list⟩
    exact h'.interested (fun hne => absurd hnil hne) hc
  · next hne => exact modWrite_interested hl h hne hc

theorem Made.interested {q : Nat} {u : Int} (h : Made g k false c c' q u)
    (hc : c.OpenInterested registered) : c'.OpenInterested registered := by
  obtain ⟨c₁, hparts, hend⟩ := h
  cases hend with
  | stays hlist => exact hparts.grows.interested hlist hc
  | settles => exact settle_interested hl hparts.grows hc
  | modWrite hne => exact modWrite_interested hl hparts.grows hne hc
  | fails e => exact interested_of_closed (fail_closed _)

theorem Write_interested (b : Bytes) (hc : c.OpenInterested registered) :
    (c.Write g k b).2.OpenInterested registered := by
  obtain ⟨_, -, h⟩ := Write_made b
  exact h.interested hl hc

theorem Writev_interested (bs : List Bytes) (hc : c.OpenInterested registered) :
    (c.Writev g k bs).2.OpenInterested registered := by
  have hafter : ∀ r : (Int × Option Err) × Conn, (∃ q u, Parts g false c r.2 q u) →
      (r.2.afterWrite g k r.1).2.OpenInterested registered := by
    rintro r ⟨_, _, h⟩
    exact (afterWrite_made h _).interested hl hc
  unfold Writev
  split
  · exact hc
  refine hafter _ ?_
  split
  · obtain ⟨q, -, h⟩ := write_parts _
    exact ⟨q, _, h⟩
  · obtain ⟨q, -, h⟩ := writev_parts bs
    exact ⟨q, _, h⟩

theorem Sendfile_interested (fuel : Nat) (f : Option File) (remain : Int)
    (hc : c.OpenInterested registered) :
    (c.Sendfile g k fuel f remain).2.OpenInterested registered := by
  cases f with
  | none => exact hc
  | some f =>
    obtain ⟨_, h, -⟩ := Sendfile_made f remain fuel
    exact h.interested hl hc

end

theorem interested_of_readWrite
    (h : c.closed = false → c.epoll = some .readWrite ∧ c.isWAdded = true) :
    c.OpenInterested true := by
  intro hopen
  obtain ⟨hepoll, hadd⟩ := h hopen
  exact ⟨by simp [hepoll, hadd], fun _ => hadd, nofun⟩

/-- `flush` of a list that is not empty starts with interest in writing, and ends with it or with
an empty list. -/
theorem flush_interested (hl : Level g k) (fuel : Nat) (hc : c.OpenInterested true) :
    (c.flush g k fuel).2.OpenInterested true := by
  unfold flush
  split
  · exact hc
  split
  · exact hc
  next hne =>
  obtain ⟨c₁, hparts, hend⟩ := flushLoop_made (g := g) (c := c) fuel
  have hsame := hparts.sameInterest
  have hc₁ : c₁.OpenInterested true := interested_of_readWrite fun hopen => by
    obtain ⟨hepoll, hwaits, -⟩ := hc (hsame.closed ▸ hopen)
    have hadd := hwaits hne
    rw [hsame.epoll, hsame.isWAdded]
    exact ⟨by simpa [hadd] using hepoll, hadd⟩
  generalize (c.flushLoop g k fuel).2 = c' at hend
  cases hend with
  | stays _ => exact hc₁
  | resetRead hnil => exact resetRead_interested hl hnil hc₁
  | rearms honeshot => simp [Engine.isOneshot, hl.level] at honeshot
  | fails e => exact interested_of_closed (fail_closed _)

theorem addConnEnd_interested (hl : Level g k) (hnil : c.writeList = [])
    (hc : c.OpenInterested false) : (c.addConnEnd g k).2.OpenInterested true := by
  unfold addConnEnd pollerAddRead
  rw [hl.level, Bool.false_and, if_neg Bool.false_ne_true, epollAdd, hl.ctl]
  cases hepoll : c.epoll with
  | some i => exact interested_of_closed (closeWithError_closed _)
  | none =>
    intro hopen
    obtain ⟨-, -, hearly⟩ := hc hopen
    have hadd : c.isWAdded = false := by
      by_contra hadd
      exact hearly rfl (Bool.not_eq_false _ ▸ hadd) hnil
    exact ⟨by simp [hadd], fun hne => absurd hnil hne, nofun⟩

theorem addDialer_interested (hl : Level g k) :
    (c.addDialer g k).2.OpenInterested true := by
  unfold addDialer pollerAddReadWrite
  split
  · exact interested_of_closed (closeWithError_closed _)
  · rw [epollAdd, hl.ctl]
    cases hepoll : c.epoll with
    | some i => exact interested_of_closed (closeWithError_closed _)
    | none => exact interested_of_readWrite fun _ => ⟨rfl, rfl⟩

theorem connectEnd_interested (hl : Level g k) (hnil : c.writeList = [])
    (hc : c.OpenInterested true) : (c.connectEnd g k).OpenInterested true := by
  have hgrows : Grows c { c with onConnected := false } := ⟨rfl, rfl, rfl, id⟩
  exact resetRead_interested hl hnil (hgrows.interested id hc)

end Conn

/-! ## Runs -/

open Conn

/-- Nothing waits in the two places where the registration is set to reading without a look at
the list. -/
def Event.clear (s : Polled) : Event → Bool
  | .opened => s.conn.writeList.isEmpty
  | .connected => s.conn.writeList.isEmpty
  | _ => true

def Phase.registered : Phase → Bool
  | .new => false
  | .opening => false
  | .idle => true
  | .connecting => true

structure Polled.Inv (s : Polled) : Prop where
  interested : s.conn.OpenInterested s.phase.registered
  new : s.phase = .new → s.conn.writeList = []

variable {g : Engine} {k : Kernel} {s s' : Polled}

theorem inv_of_interested {c : Conn} {p : Phase} (hp : p ≠ .new)
    (h : c.OpenInterested p.registered) : Polled.Inv ⟨c, p⟩ :=
  ⟨h, fun hnew => absurd hnew hp⟩

theorem inv_of_returned {p : Phase} {r : Outcome × Conn} (hp : p ≠ .new)
    (h : r.1 ≠ .running → r.2.OpenInterested p.registered) (hr : returned p r = some s') :
    s'.Inv := by
  obtain ⟨o, c⟩ := r
  cases o with
  | running => cases hr
  | panics => cases hr
  | returns n err =>
    cases hr
    exact inv_of_interested hp (h nofun)

theorem inv_step (hl : Level g k) (e : Event) (h : s.Inv) (hclear : e.clear s = true)
    (hstep : step g k s e = some s') : s'.Inv := by
  obtain ⟨c, p⟩ := s
  obtain ⟨hc, hnew⟩ := h
  cases e with
  | addConn =>
    obtain ⟨hp, hstep⟩ := ite_none_right_eq_some.1 hstep
    rw [show p = .new from hp] at hc
    by_cases hfd : g.maxOpenFiles ≤ c.fd
    · rw [addConn, if_pos hfd] at hstep
      cases hstep
      exact inv_of_interested nofun (interested_of_closed (closeWithError_closed _))
    · rw [addConn, if_neg hfd] at hstep
      cases hstep
      have hgrows : Grows c { c with added := true } := ⟨rfl, rfl, rfl, id⟩
      exact inv_of_interested nofun (hgrows.interested id hc)
  | opened =>
    obtain ⟨hp, ⟨⟩⟩ := ite_none_right_eq_some.1 hstep
    rw [show p = .opening from hp] at hc
    exact inv_of_interested nofun (addConnEnd_interested hl (List.isEmpty_iff.1 hclear) hc)
  | addDialer inprogress =>
    simp only [step] at hstep
    split at hstep
    · cases hstep
      exact inv_of_interested nofun (addDialer_interested hl)
    · cases hstep
  | writable fuel =>
    obtain ⟨hp, hstep⟩ := ite_none_right_eq_some.1 hstep
    rw [show p = .idle from hp] at hc
    split at hstep
    · cases hstep
      exact inv_of_interested nofun hc
    · exact inv_of_returned (p := .idle) nofun (fun _ => flush_interested hl fuel hc) hstep
  | connected =>
    obtain ⟨hp, ⟨⟩⟩ := ite_none_right_eq_some.1 hstep
    rw [show p = .connecting from hp] at hc
    exact inv_of_interested nofun (connectEnd_interested hl (List.isEmpty_iff.1 hclear) hc)
  | write b =>
    obtain ⟨hp, ⟨⟩⟩ := ite_none_left_eq_some.1 hstep
    exact inv_of_interested hp (Write_interested hl b hc)
  | writev bs =>
    obtain ⟨hp, ⟨⟩⟩ := ite_none_left_eq_some.1 hstep
    exact inv_of_interested hp (Writev_interested hl bs hc)
  | sendfile f remain fuel =>
    obtain ⟨hp, hstep⟩ := ite_none_left_eq_some.1 hstep
    exact inv_of_returned hp (fun _ => Sendfile_interested hl fuel f remain hc) hstep
  | close err =>
    cases hstep
    refine ⟨interested_of_closed (closeWithError_closed _), fun hp => ?_⟩
    simp only [closeWithError, closeWithErrorWithoutLock]
    repeat' split
    · exact hnew hp
    all_goals rfl

/-- In every run of a connection in a level-triggered poller in which nothing waits to be
written where `addConn` registers the descriptor behind its callback and where `readWriteLoop`
resets it behind the `onConnected` callback: whenever the poller is doing nothing about the
connection, and it is open and has data waiting, it is registered for writing. -/
theorem pending_has_interest (hl : Level g k) (fd : Nat) (typ : ConnType)
    (h : Reaches (step g k) (fun s e => e.clear s = true) ⟨newConn fd typ, .new⟩ s)
    (hidle : s.phase = .idle) (hopen : s.conn.closed = false) (hwaits : s.conn.writeList ≠ []) :
    s.conn.isWAdded = true ∧ s.conn.epoll = some .readWrite := by
  have hinv : s.Inv := h.invariant
    ⟨fun _ => ⟨rfl, fun hne => absurd rfl hne, fun _ => nofun⟩, fun _ => rfl⟩
    (fun _ e _ ht hclear hstep => inv_step hl e ht hclear hstep)
  have hint := hinv.interested
  rw [hidle] at hint
  obtain ⟨hepoll, hadd, -⟩ := hint hopen
  exact ⟨hadd hwaits, by simpa [hadd hwaits, Phase.registered] using hepoll⟩

theorem level_plain_short : Level plainEngine shortKernel := ⟨rfl, fun _ => rfl⟩

/-- An accepted connection is written to after it has been added: the kernel has no room, and the
five bytes wait. -/
theorem pending_has_interest_accepted :
    ∃ s, Reaches (step plainEngine shortKernel) (fun s e => e.clear s = true)
        ⟨newConn 7 .tcp, .new⟩ s ∧
      s.phase = .idle ∧ s.conn.closed = false ∧ s.conn.writeList ≠ [] ∧
      s.conn.isWAdded = true ∧ s.conn.epoll = some .readWrite := by
  have hrun : [Event.addConn, .opened, .write (ascii "hello")].foldlM
      (guarded (step plainEngine shortKernel) fun s e => e.clear s) ⟨newConn 7 .tcp, .new⟩ =
        some _ := rfl
  have h := Reaches.of_foldlM hrun
  exact ⟨_, h, rfl, rfl, by decide,
    pending_has_interest level_plain_short 7 .tcp h rfl rfl (by decide)⟩

/-- A dialled connection is written to in its `onConnected` callback: the five bytes wait, and the
registration is reset to reading. -/
theorem connected_write_loses_interest :
    ∃ s, [Event.addDialer true, .writable 0, .write (ascii "hello"), .connected].foldlM
        (step plainEngine shortKernel) ⟨newConn 7 .tcp, .new⟩ = some s ∧
      s.phase = .idle ∧ s.conn.closed = false ∧ s.conn.writeList ≠ [] ∧
      s.conn.isWAdded = false ∧ s.conn.epoll = some .read := by
  refine ⟨_, rfl, ?_⟩
  decide

end Nbio.Net
