import Nbio.Lib.Machine
import Nbio.Net.Conn

/-!
# The engine's registry of connections

What an engine does with its connections as a whole: it enters them into the table `connsUnix` and
into the epoll set of a poller, looks them up by the descriptor of an event, and takes them out when
they are closed.  Beside it runs the wait group `wgConn`, to which each opened connection is added
and from which it is taken when its `onClose` handler has run.

A connection is a `Link` here: of it only what these parts look at is kept.  Each step is one that
no other goroutine can look into.  A descriptor belongs to the link that has it open; the kernel may
give its number to a new connection as soon as it is closed.  An event is reported for the link that
owns the descriptor then (`Entry.owner`), but the poller finds the link for it in the table when it
comes to it.
-/

namespace Nbio.Net

open Nbio.Go Nbio.Lib Option

namespace Registry

/-! ## The state -/

/-- The bits of `EpollEvent.Events` that `readWriteLoop` looks at. -/
structure Events where
  epollin : Bool
  epollpri : Bool
  epollout : Bool
  epollerr : Bool
  epollhup : Bool
  epollrdhup : Bool
deriving DecidableEq, Repr

namespace Events

def read (e : Events) : Bool := e.epollpri || e.epollin

def write (e : Events) : Bool := e.epollout

def error (e : Events) : Bool := e.epollerr || e.epollhup || e.epollrdhup

def peerHangup (e : Events) : Bool := e.epollhup || e.epollrdhup

end Events

inductive Connect where
  | none
  | inprogress
  | succeeded
  | failed
deriving DecidableEq, Repr

inductive Adding where
  | idle
  /-- `addConn` has set `p`; `onOpen` is next. -/
  | opening
  /-- `readUDP` has made the connection; `onOpen` is next. -/
  | reading
  /-- `addConn` has called `onOpen`; the table is next. -/
  | opened
  /-- `addConn` has written the table; `addRead` is next. -/
  | registering
  /-- `DialAsyncTimeout` has called `wgConn.Add`; `addDialer` is next. -/
  | dialing
  /-- `addDialer` has written the table; `addReadWrite` is next. -/
  | dialRegistering
  /-- `addDialer` has returned nil. -/
  | dialed
  /-- `addDialer` has returned an error. -/
  | dialFailed
deriving DecidableEq, Repr

/-- Where the one call of `closeWithErrorWithoutLock` is. -/
inductive Closing where
  | before
  | deleting
  | closing
  | finished
deriving DecidableEq, Repr

structure Link where
  fd : Nat
  typ : ConnType
  p : Bool
  adding : Adding
  closed : Bool
  closing : Closing
  /-- Whether the descriptor is open and belongs to this connection. -/
  fdOpen : Bool
  connect : Connect
  /-- Whether the connect was in progress when `DialAsyncTimeout` went on. -/
  deferred : Bool
  onConnected : Bool
  /-- The errors that the callback of the dial was called with. -/
  reported : List (Option Err)
  /-- Whether the timer of the dial is set.  It does nothing to a closed connection. -/
  wTimer : Bool
  /-- Whether `DialAsyncTimeout` has returned nil. -/
  returned : Bool
  /-- The calls of `wgConn.Add(1)` and `wgConn.Done` for it. -/
  adds : Nat
  dones : Nat
  /-- Whether it has been opened: by `onOpen`, or by a dial. -/
  opened : Bool
  /-- Whether its `onClose` handler has run, or its dial has returned an error. -/
  ended : Bool
deriving DecidableEq, Repr

/-- A connection as `NBConn` makes it. -/
def Link.new (fd : Nat) (typ : ConnType) : Link :=
  { fd := fd, typ := typ, p := false, adding := .idle, closed := false, closing := .before
    fdOpen := true, connect := .none, deferred := false, onConnected := false, reported := []
    wTimer := false, returned := false, adds := 0, dones := 0, opened := false, ended := false }

/-- A connection as `DialAsyncTimeout` makes it, with the connect in progress or made. -/
def Link.dial (fd : Nat) (typ : ConnType) (inprogress : Bool) : Link :=
  { Link.new fd typ with
    adding := .dialing, connect := if inprogress then .inprogress else .succeeded
    deferred := inprogress, onConnected := inprogress, adds := 1, opened := true }

/-- A connection that a UDP server makes for a new sender, whose descriptor is the server's. -/
def Link.child (fd : Nat) : Link :=
  { Link.new fd .udpClientFromRead with p := true, adding := .reading, fdOpen := false }

/-- `closeWithError`, up to its call of `closeWithErrorWithoutLock`. -/
def Link.close (l : Link) : Link :=
  if l.closed then l else { l with closed := true, closing := .deleting, wTimer := false }

/-- The callback of the dial is called; it stops the timer first. -/
def Link.report (l : Link) : Link :=
  { l with reported := l.reported ++ [none], onConnected := false, wTimer := false }

/-- An entry of a batch of events, with the link that it was reported for. -/
structure Entry where
  fd : Nat
  events : Events
  owner : Nat
deriving DecidableEq, Repr

/-- The parts of the body of `readWriteLoop` for one entry. -/
inductive Part where
  | write
  | read
  | error
deriving DecidableEq, Repr

/-- An entry that the poller has come to: the link it has found, and whether that owned the
descriptor then. -/
structure Work where
  entry : Entry
  conn : Nat
  owned : Bool
  part : Part
deriving DecidableEq, Repr

/-- What the poller is at after a part. -/
def Work.next (w : Work) : Option Work :=
  match w.part with
  | .write => some { w with part := .read }
  | .read => some { w with part := .error }
  | .error => none

/-- A poller: the entries of the batch that it has not come to, and the one it is at. -/
structure Poller where
  batch : List Entry
  current : Option Work
deriving DecidableEq, Repr

inductive Job where
  | onClose (i : Nat)
  | onConnected (i : Nat)
deriving DecidableEq, Repr

/-- A poller has closed a link because of an entry. -/
structure Hit where
  owner : Nat
  target : Nat
  owned : Bool
deriving DecidableEq, Repr

/-- What `readWriteLoop` reads of the engine: whether `onRead` is set, and `asyncReadEnabled`. -/
structure Conf where
  onRead : Bool
  asyncReadEnabled : Bool
deriving DecidableEq, Repr

/-- The poller reads itself. -/
def synchronous : Conf := { onRead := false, asyncReadEnabled := false }

def isDatagram (typ : ConnType) : Bool :=
  typ == .udpServer || typ == .udpClientFromRead || typ == .udpClientFromDial

/-- Whether a hangup of the peer is treated as a read event. -/
def Conf.drainPeer (conf : Conf) (e : Events) (typ : ConnType) : Bool :=
  e.peerHangup && !conf.onRead && !conf.asyncReadEnabled && !isDatagram typ

structure State where
  conf : Conf
  links : List Link
  connsUnix : List (Option Nat)
  /-- The links whose descriptors are in the epoll set of a poller. -/
  epoll : List Nat
  pollers : List Poller
  /-- The jobs that `AsyncRead` has given to `IOExecute`. -/
  tasks : List Work
  wgConn : Int
  asyncList : List Job
  stopped : Bool
  hits : List Hit
deriving DecidableEq, Repr

def start (conf : Conf) (maxOpenFiles nPoller : Nat) : State :=
  { conf := conf, links := [], connsUnix := List.replicate maxOpenFiles none, epoll := []
    pollers := List.replicate nPoller { batch := [], current := none }, tasks := []
    wgConn := 1, asyncList := [], stopped := false, hits := [] }

namespace State

variable (s : State)

def add (l : Link) : State := { s with links := s.links ++ [l] }

def put (i : Nat) (l : Link) : State := { s with links := s.links.set i l }

def setPoller (q : Nat) (p : Poller) : State := { s with pollers := s.pollers.set q p }

def setConn (fd : Nat) (c : Option Nat) : State := { s with connsUnix := s.connsUnix.set fd c }

def getConn (fd : Nat) : Option Nat := (s.connsUnix[fd]?).join

def ownerOf (fd : Nat) : Option Nat := s.links.findIdx? fun l => l.fdOpen && l.fd == fd

/-- `EPOLL_CTL_ADD`, which fails for a descriptor that is not open or is in the set. -/
def epollAdd (fd : Nat) : Option State :=
  (s.ownerOf fd).bind fun j =>
    if j ∈ s.epoll then none else some { s with epoll := s.epoll ++ [j] }

def deleteConn (i : Nat) (l : Link) : State :=
  { s with
    connsUnix :=
      if l.typ ≠ .udpClientFromRead ∧ s.getConn l.fd = some i then s.connsUnix.set l.fd none
      else s.connsUnix
    asyncList := if l.typ ≠ .udpServer then s.asyncList ++ [.onClose i] else s.asyncList }

/-- A poller closes the link that it has found for an entry. -/
def closeFor (w : Work) (l : Link) : State :=
  { s.put w.conn l.close with hits := s.hits ++ [⟨w.entry.owner, w.conn, w.owned⟩] }

/-- A part of the body of `readWriteLoop`, for the link that was found. -/
def handle (w : Work) (l : Link) (fails : Bool) : State :=
  match w.part with
  | .write =>
    if w.entry.events.write then
      if l.onConnected then s.put w.conn l.report
      else if fails then s.closeFor w l
      else s
    else s
  | .read =>
    if w.entry.events.read || s.conf.drainPeer w.entry.events l.typ then
      -- what a handler of the user does is not the engine's
      if s.conf.onRead then s
      else if s.conf.asyncReadEnabled then { s with tasks := s.tasks ++ [w] }
      else if fails then s.closeFor w l
      else s
    else s
  | .error => if w.entry.events.error then s.closeFor w l else s

end State

/-! ## Steps -/

inductive Event where
  /-- `Accept` and `NBConn`. -/
  | accept (fd : Nat) (typ : ConnType)
  | addConn (i : Nat)
  | onOpen (i : Nat)
  | setConn (i : Nat)
  | addRead (i : Nat) (ok : Bool)
  | dial (fd : Nat) (typ : ConnType) (inprogress : Bool)
  | addDialer (i : Nat)
  | addReadWrite (i : Nat) (ok : Bool)
  /-- The end of `DialAsyncTimeout`. -/
  | dialReturn (i : Nat) (timeout : Bool)
  /-- A datagram from a new sender is read on server `i`. -/
  | readUDP (i : Nat)
  /-- The kernel is done with a connect. -/
  | connected (i : Nat) (ok : Bool)
  /-- `Close`, `CloseWithError`, or a timer other than that of the dial. -/
  | close (i : Nat)
  | dialTimeout (i : Nat)
  | deleteConn (i : Nat)
  | closeFd (i : Nat)
  | async
  /-- `EpollWait` returns: the links and what is reported for them. -/
  | wait (q : Nat) (reports : List (Nat × Events))
  /-- The poller comes to the next entry of its batch. -/
  | next (q : Nat)
  /-- The poller goes through the next part of its entry, in which a flush or a read may fail. -/
  | handle (q : Nat) (fails : Bool)
  /-- A job of `AsyncRead` ends. -/
  | asyncRead (k : Nat) (fails : Bool)
  | stop
deriving DecidableEq, Repr

def Event.link : Event → Option Nat
  | .addConn i | .onOpen i | .setConn i | .addRead i _ | .addDialer i | .addReadWrite i _
  | .dialReturn i _ | .readUDP i | .connected i _ | .close i | .dialTimeout i | .deleteConn i
  | .closeFd i => some i
  | _ => none

/-- What epoll may report for a link: nothing while a connect is in progress, then that it is
writable, and with it the error of one that has failed. -/
def Link.mayReport (l : Link) (e : Events) : Bool :=
  match l.connect with
  | .none => true
  | .inprogress => false
  | .failed => !l.onConnected || e.epollout && (e.epollerr || e.epollhup)
  | .succeeded => !l.onConnected || e.epollout

def State.entry (s : State) (q : Nat) (r : Nat × Events) : Option Entry :=
  s.links[r.1]?.bind fun l =>
    if l.fdOpen = true ∧ r.1 ∈ s.epoll ∧ l.fd % s.pollers.length = q ∧ l.mayReport r.2 = true then
      some { fd := l.fd, events := r.2, owner := r.1 }
    else none

def dials (typ : ConnType) : Bool := typ == .tcp || typ == .unix || typ == .udpClientFromDial

def State.linkStep (s : State) (i : Nat) (l : Link) : Event → Option State
  | .addConn _ =>
    -- a dial hands the connection out by its callback
    if l.adding = .idle ∧ l.onConnected = false then
      if s.connsUnix.length ≤ l.fd then some (s.put i l.close)
      else some (s.put i { l with p := true, adding := .opening })
    else none
  | .onOpen _ =>
    if l.adding = .opening then
      if l.typ = .udpServer then some (s.put i { l with adding := .opened })
      else
        some { s.put i { l with adding := .opened, adds := l.adds + 1, opened := true } with
          wgConn := s.wgConn + 1 }
    else if l.adding = .reading then
      some { s.put i { l with adding := .idle, adds := l.adds + 1, opened := true } with
        wgConn := s.wgConn + 1 }
    else none
  | .setConn _ =>
    if l.adding = .opened then
      some ((s.put i { l with adding := .registering }).setConn l.fd (some i))
    else none
  | .addRead _ ok =>
    if l.adding = .registering then
      if ok then (s.epollAdd l.fd).map fun s => s.put i { l with adding := .idle }
      else some ((s.setConn l.fd none).put i { l with adding := .idle }.close)
    else none
  | .addDialer _ =>
    if l.adding = .dialing then
      if s.connsUnix.length ≤ l.fd then some (s.put i { l with adding := .dialFailed }.close)
      else some ((s.put i { l with p := true, adding := .dialRegistering }).setConn l.fd (some i))
    else none
  | .addReadWrite _ ok =>
    if l.adding = .dialRegistering then
      if ok then (s.epollAdd l.fd).map fun s => s.put i { l with adding := .dialed }
      else some ((s.setConn l.fd none).put i { l with adding := .dialFailed }.close)
    else none
  | .dialReturn _ timeout =>
    if l.adding = .dialFailed then
      some { s.put i { l with adding := .idle, dones := l.dones + 1, ended := true } with
        wgConn := s.wgConn - 1 }
    else if l.adding = .dialed then
      if l.deferred then
        some (s.put i { l with
          adding := .idle, returned := true, wTimer := l.wTimer || (timeout && !l.closed) })
      else
        some { s.put i { l with adding := .idle, returned := true } with
          asyncList := s.asyncList ++ [.onConnected i] }
    else none
  | .readUDP _ =>
    if l.typ = .udpServer ∧ l.p = true ∧ l.closed = false then some (s.add (Link.child l.fd))
    else none
  | .connected _ ok =>
    if l.connect = .inprogress then
      some (s.put i { l with connect := if ok then .succeeded else .failed })
    else none
  | .close _ =>
    -- nobody else has the connection before `addDialer` has entered it
    if l.adding = .dialing then none else some (s.put i l.close)
  | .dialTimeout _ => if l.wTimer then some (s.put i l.close) else none
  | .deleteConn _ =>
    if l.closing = .deleting then
      let s := s.put i { l with closing := .closing }
      if l.p then some (s.deleteConn i l) else some s
    else none
  | .closeFd _ =>
    if l.closing = .closing then
      some { s.put i { l with closing := .finished, fdOpen := false } with
        epoll := s.epoll.filter (· ≠ i) }
    else none
  | _ => none

def State.pollerStep (s : State) (q : Nat) (p : Poller) : Event → Option State
  | .wait _ reports =>
    if p.batch = [] ∧ p.current = none ∧ reports.length ≤ 1024 then
      (reports.mapM (s.entry q)).map fun batch => s.setPoller q { p with batch := batch }
    else none
  | .next _ =>
    match p.current, p.batch with
    | none, e :: rest =>
      match s.getConn e.fd with
      | none => some (s.setPoller q { p with batch := rest })
      | some i =>
        s.links[i]?.map fun l => s.setPoller q
          { batch := rest, current := some ⟨e, i, l.fdOpen, .write⟩ }
    | _, _ => none
  | .handle _ fails =>
    p.current.bind fun w =>
      s.links[w.conn]?.map fun l =>
        (s.setPoller q { p with current := w.next }).handle w l fails
  | _ => none

def step (s : State) (e : Event) : Option State :=
  match e with
  | .accept fd typ =>
    if s.ownerOf fd = none ∧ typ ≠ .udpClientFromRead then some (s.add (Link.new fd typ)) else none
  | .dial fd typ inprogress =>
    if s.ownerOf fd = none ∧ dials typ = true then
      some { s.add (Link.dial fd typ inprogress) with wgConn := s.wgConn + 1 }
    else none
  | .async =>
    match s.asyncList with
    | [] => none
    | .onClose i :: rest =>
      s.links[i]?.map fun l =>
        { s.put i { l with dones := l.dones + 1, ended := true } with
          asyncList := rest, wgConn := s.wgConn - 1 }
    | .onConnected i :: rest =>
      s.links[i]?.map fun l => { s.put i l.report with asyncList := rest }
  | .stop => if s.stopped then none else some { s with stopped := true, wgConn := s.wgConn - 1 }
  | .asyncRead k fails =>
    s.tasks[k]?.bind fun w =>
      s.links[w.conn]?.map fun l =>
        let s := { s with tasks := s.tasks.eraseIdx k }
        if fails then s.closeFor w l else s
  | .wait q _ | .next q | .handle q _ =>
    s.pollers[q]?.bind fun p => s.pollerStep q p e
  | e => e.link.bind fun i => s.links[i]?.bind fun l => s.linkStep i l e

/-! ## What a step does -/

variable {s s' : State} {e : Event} {i j q : Nat} {l : Link} {p : Poller} {w : Work}

/-- What a part of the body of `readWriteLoop` does to a link. -/
inductive Effect (s : State) (w : Work) (l : Link) : State → Prop where
  | none (h : w.part = .write → w.entry.events.write = true → l.onConnected = false) :
    Effect s w l s
  | task (hpart : w.part = .read) : Effect s w l { s with tasks := s.tasks ++ [w] }
  | report (hpart : w.part = .write) (hwrite : w.entry.events.write = true)
    (hon : l.onConnected = true) : Effect s w l (s.put w.conn l.report)
  | close (h : w.part = .write → w.entry.events.write = true ∧ l.onConnected = false) :
    Effect s w l (s.closeFor w l)

theorem State.handle_effect (s : State) (w : Work) (l : Link) (fails : Bool) :
    Effect s w l (s.handle w l fails) := by
  unfold State.handle
  cases hpart : w.part with
  | write =>
    dsimp only
    split
    · next hwrite =>
      split
      · next hon => exact .report hpart hwrite hon
      · next hon =>
        have hoff := Bool.eq_false_iff.2 hon
        split
        · exact .close fun _ => ⟨hwrite, hoff⟩
        · exact .none fun _ _ => hoff
    · next hwrite => exact .none fun _ h => absurd h hwrite
  | read =>
    have hno : w.part = .write → False := fun h => by rw [hpart] at h; cases h
    dsimp only
    repeat' split
    · exact .none fun h => (hno h).elim
    · exact .task hpart
    · exact .close fun h => (hno h).elim
    · exact .none fun h => (hno h).elim
    · exact .none fun h => (hno h).elim
  | error =>
    have hno : w.part = .write → False := fun h => by rw [hpart] at h; cases h
    dsimp only
    split
    · exact .close fun h => (hno h).elim
    · exact .none fun h => (hno h).elim

inductive Step (s : State) : Event → State → Prop where
  | accept {fd : Nat} {typ : ConnType} (hfree : s.ownerOf fd = none)
    (htyp : typ ≠ .udpClientFromRead) :
    Step s (.accept fd typ) (s.add (Link.new fd typ))
  | dial {fd : Nat} {typ : ConnType} {inprogress : Bool} (hfree : s.ownerOf fd = none)
    (htyp : dials typ = true) :
    Step s (.dial fd typ inprogress)
      { s.add (Link.dial fd typ inprogress) with wgConn := s.wgConn + 1 }
  | readUDP {i : Nat} {l : Link} (hl : s.links[i]? = some l) (htyp : l.typ = .udpServer)
    (hp : l.p = true) (hopen : l.closed = false) : Step s (.readUDP i) (s.add (Link.child l.fd))
  | addConnLimit {i : Nat} {l : Link} (hl : s.links[i]? = some l) (hidle : l.adding = .idle)
    (hon : l.onConnected = false) (hfd : s.connsUnix.length ≤ l.fd) :
    Step s (.addConn i) (s.put i l.close)
  | addConn {i : Nat} {l : Link} (hl : s.links[i]? = some l) (hidle : l.adding = .idle)
    (hon : l.onConnected = false) (hfd : l.fd < s.connsUnix.length) :
    Step s (.addConn i) (s.put i { l with p := true, adding := .opening })
  | onUDPListen {i : Nat} {l : Link} (hl : s.links[i]? = some l) (hat : l.adding = .opening)
    (htyp : l.typ = .udpServer) : Step s (.onOpen i) (s.put i { l with adding := .opened })
  | onOpen {i : Nat} {l : Link} (hl : s.links[i]? = some l) (hat : l.adding = .opening)
    (htyp : l.typ ≠ .udpServer) :
    Step s (.onOpen i)
      { s.put i { l with adding := .opened, adds := l.adds + 1, opened := true } with
        wgConn := s.wgConn + 1 }
  | onOpenUDP {i : Nat} {l : Link} (hl : s.links[i]? = some l) (hat : l.adding = .reading) :
    Step s (.onOpen i)
      { s.put i { l with adding := .idle, adds := l.adds + 1, opened := true } with
        wgConn := s.wgConn + 1 }
  | setConn {i : Nat} {l : Link} (hl : s.links[i]? = some l) (hat : l.adding = .opened) :
    Step s (.setConn i) ((s.put i { l with adding := .registering }).setConn l.fd (some i))
  | addRead {i j : Nat} {l : Link} (hl : s.links[i]? = some l) (hat : l.adding = .registering)
    (hj : s.ownerOf l.fd = some j) (hnew : j ∉ s.epoll) :
    Step s (.addRead i true)
      (State.put { s with epoll := s.epoll ++ [j] } i { l with adding := .idle })
  | addReadFail {i : Nat} {l : Link} (hl : s.links[i]? = some l) (hat : l.adding = .registering) :
    Step s (.addRead i false) ((s.setConn l.fd none).put i { l with adding := .idle }.close)
  | addDialerLimit {i : Nat} {l : Link} (hl : s.links[i]? = some l) (hat : l.adding = .dialing)
    (hfd : s.connsUnix.length ≤ l.fd) :
    Step s (.addDialer i) (s.put i { l with adding := .dialFailed }.close)
  | addDialer {i : Nat} {l : Link} (hl : s.links[i]? = some l) (hat : l.adding = .dialing)
    (hfd : l.fd < s.connsUnix.length) :
    Step s (.addDialer i)
      ((s.put i { l with p := true, adding := .dialRegistering }).setConn l.fd (some i))
  | addReadWrite {i j : Nat} {l : Link} (hl : s.links[i]? = some l)
    (hat : l.adding = .dialRegistering) (hj : s.ownerOf l.fd = some j) (hnew : j ∉ s.epoll) :
    Step s (.addReadWrite i true)
      (State.put { s with epoll := s.epoll ++ [j] } i { l with adding := .dialed })
  | addReadWriteFail {i : Nat} {l : Link} (hl : s.links[i]? = some l)
    (hat : l.adding = .dialRegistering) :
    Step s (.addReadWrite i false)
      ((s.setConn l.fd none).put i { l with adding := .dialFailed }.close)
  | dialFailed {i : Nat} {l : Link} {timeout : Bool} (hl : s.links[i]? = some l)
    (hat : l.adding = .dialFailed) :
    Step s (.dialReturn i timeout)
      { s.put i { l with adding := .idle, dones := l.dones + 1, ended := true } with
        wgConn := s.wgConn - 1 }
  | dialDeferred {i : Nat} {l : Link} {timeout : Bool} (hl : s.links[i]? = some l)
    (hat : l.adding = .dialed) (hdeferred : l.deferred = true) :
    Step s (.dialReturn i timeout)
      (s.put i { l with
        adding := .idle, returned := true, wTimer := l.wTimer || (timeout && !l.closed) })
  | dialed {i : Nat} {l : Link} {timeout : Bool} (hl : s.links[i]? = some l)
    (hat : l.adding = .dialed) (hdeferred : l.deferred = false) :
    Step s (.dialReturn i timeout)
      { s.put i { l with adding := .idle, returned := true } with
        asyncList := s.asyncList ++ [.onConnected i] }
  | connected {i : Nat} {l : Link} {ok : Bool} (hl : s.links[i]? = some l)
    (hat : l.connect = .inprogress) :
    Step s (.connected i ok)
      (s.put i { l with connect := if ok then .succeeded else .failed })
  | close {i : Nat} {l : Link} (hl : s.links[i]? = some l) (hat : l.adding ≠ .dialing) :
    Step s (.close i) (s.put i l.close)
  | dialTimeout {i : Nat} {l : Link} (hl : s.links[i]? = some l) (htimer : l.wTimer = true) :
    Step s (.dialTimeout i) (s.put i l.close)
  | deleteConn {i : Nat} {l : Link} (hl : s.links[i]? = some l) (hat : l.closing = .deleting)
    (hp : l.p = true) :
    Step s (.deleteConn i) ((s.put i { l with closing := .closing }).deleteConn i l)
  | deleteNone {i : Nat} {l : Link} (hl : s.links[i]? = some l) (hat : l.closing = .deleting)
    (hp : l.p = false) : Step s (.deleteConn i) (s.put i { l with closing := .closing })
  | closeFd {i : Nat} {l : Link} (hl : s.links[i]? = some l) (hat : l.closing = .closing) :
    Step s (.closeFd i)
      { s.put i { l with closing := .finished, fdOpen := false } with
        epoll := s.epoll.filter (· ≠ i) }
  | onClose {i : Nat} {l : Link} {rest : List Job} (hjobs : s.asyncList = .onClose i :: rest)
    (hl : s.links[i]? = some l) :
    Step s .async
      { s.put i { l with dones := l.dones + 1, ended := true } with
        asyncList := rest, wgConn := s.wgConn - 1 }
  | onConnected {i : Nat} {l : Link} {rest : List Job}
    (hjobs : s.asyncList = .onConnected i :: rest) (hl : s.links[i]? = some l) :
    Step s .async { s.put i l.report with asyncList := rest }
  | stop (h : s.stopped = false) : Step s .stop { s with stopped := true, wgConn := s.wgConn - 1 }
  | wait {q : Nat} {p : Poller} {reports : List (Nat × Events)} {batch : List Entry}
    (hp : s.pollers[q]? = some p) (hcurrent : p.current = none)
    (hbatch : reports.mapM (s.entry q) = some batch) :
    Step s (.wait q reports) (s.setPoller q { p with batch := batch })
  | skip {q : Nat} {p : Poller} {entry : Entry} {rest : List Entry} (hp : s.pollers[q]? = some p)
    (hcurrent : p.current = none) (hbatch : p.batch = entry :: rest)
    (hconn : s.getConn entry.fd = none) : Step s (.next q) (s.setPoller q { p with batch := rest })
  | next {q i : Nat} {l : Link} {p : Poller} {entry : Entry} {rest : List Entry}
    (hp : s.pollers[q]? = some p) (hcurrent : p.current = none) (hbatch : p.batch = entry :: rest)
    (hconn : s.getConn entry.fd = some i) (hl : s.links[i]? = some l) :
    Step s (.next q)
      (s.setPoller q { batch := rest, current := some ⟨entry, i, l.fdOpen, .write⟩ })
  | handle {q : Nat} {fails : Bool} {l : Link} {p : Poller} {w : Work} {s' : State}
    (hp : s.pollers[q]? = some p) (hcurrent : p.current = some w)
    (hl : s.links[w.conn]? = some l)
    (heffect : Effect (s.setPoller q { p with current := w.next }) w l s') :
    Step s (.handle q fails) s'
  | asyncRead {k : Nat} {fails : Bool} {l : Link} {w : Work} {s' : State}
    (hw : s.tasks[k]? = some w) (hl : s.links[w.conn]? = some l)
    (heffect : s' = { s with tasks := s.tasks.eraseIdx k } ∨
      s' = State.closeFor { s with tasks := s.tasks.eraseIdx k } w l) :
    Step s (.asyncRead k fails) s'

theorem State.epollAdd_eq_some {fd : Nat} (h : s.epollAdd fd = some s') :
    ∃ j, s.ownerOf fd = some j ∧ j ∉ s.epoll ∧ s' = { s with epoll := s.epoll ++ [j] } := by
  obtain ⟨j, hj, h⟩ := bind_eq_some_iff.1 h
  obtain ⟨hnew, ⟨⟩⟩ := ite_none_left_eq_some.1 h
  exact ⟨j, hj, hnew, rfl⟩

theorem State.linkStep_cases (hi : e.link = some i) (hl : s.links[i]? = some l)
    (h : s.linkStep i l e = some s') : Step s e s' := by
  cases e <;> cases hi
  all_goals simp only [State.linkStep] at h
  case addConn =>
    obtain ⟨hc, h⟩ := ite_none_right_eq_some.1 h
    split at h
    · next hfd =>
      cases h
      exact .addConnLimit hl hc.1 hc.2 hfd
    · next hfd =>
      cases h
      exact .addConn hl hc.1 hc.2 (Nat.lt_of_not_le hfd)
  case onOpen =>
    split at h
    · next hat =>
      split at h
      · next htyp =>
        cases h
        exact .onUDPListen hl hat htyp
      · next htyp =>
        cases h
        exact .onOpen hl hat htyp
    · obtain ⟨hat, ⟨⟩⟩ := ite_none_right_eq_some.1 h
      exact .onOpenUDP hl hat
  case setConn =>
    obtain ⟨hat, ⟨⟩⟩ := ite_none_right_eq_some.1 h
    exact .setConn hl hat
  case addRead ok =>
    obtain ⟨hat, h⟩ := ite_none_right_eq_some.1 h
    cases ok with
    | true =>
      obtain ⟨r, hr, rfl⟩ := map_eq_some_iff.1 h
      obtain ⟨j, hj, hnew, rfl⟩ := State.epollAdd_eq_some hr
      exact .addRead hl hat hj hnew
    | false =>
      cases h
      exact .addReadFail hl hat
  case addDialer =>
    obtain ⟨hat, h⟩ := ite_none_right_eq_some.1 h
    split at h
    · next hfd =>
      cases h
      exact .addDialerLimit hl hat hfd
    · next hfd =>
      cases h
      exact .addDialer hl hat (Nat.lt_of_not_le hfd)
  case addReadWrite ok =>
    obtain ⟨hat, h⟩ := ite_none_right_eq_some.1 h
    cases ok with
    | true =>
      obtain ⟨r, hr, rfl⟩ := map_eq_some_iff.1 h
      obtain ⟨j, hj, hnew, rfl⟩ := State.epollAdd_eq_some hr
      exact .addReadWrite hl hat hj hnew
    | false =>
      cases h
      exact .addReadWriteFail hl hat
  case dialReturn timeout =>
    split at h
    · next hat =>
      cases h
      exact .dialFailed hl hat
    · obtain ⟨hat, h⟩ := ite_none_right_eq_some.1 h
      split at h
      · next hdeferred =>
        cases h
        exact .dialDeferred hl hat hdeferred
      · next hdeferred =>
        cases h
        exact .dialed hl hat (Bool.eq_false_iff.2 hdeferred)
  case readUDP =>
    obtain ⟨hc, ⟨⟩⟩ := ite_none_right_eq_some.1 h
    exact .readUDP hl hc.1 hc.2.1 hc.2.2
  case connected ok =>
    obtain ⟨hat, ⟨⟩⟩ := ite_none_right_eq_some.1 h
    exact .connected hl hat
  case close =>
    obtain ⟨hat, ⟨⟩⟩ := ite_none_left_eq_some.1 h
    exact .close hl hat
  case dialTimeout =>
    obtain ⟨htimer, ⟨⟩⟩ := ite_none_right_eq_some.1 h
    exact .dialTimeout hl htimer
  case deleteConn =>
    obtain ⟨hat, h⟩ := ite_none_right_eq_some.1 h
    split at h
    · next hp =>
      cases h
      exact .deleteConn hl hat hp
    · next hp =>
      cases h
      exact .deleteNone hl hat (Bool.eq_false_iff.2 hp)
  case closeFd =>
    obtain ⟨hat, ⟨⟩⟩ := ite_none_right_eq_some.1 h
    exact .closeFd hl hat

theorem step_cases (h : step s e = some s') : Step s e s' := by
  cases e with
  | accept fd typ =>
    obtain ⟨hc, ⟨⟩⟩ := ite_none_right_eq_some.1 h
    exact .accept hc.1 hc.2
  | dial fd typ inprogress =>
    obtain ⟨hc, ⟨⟩⟩ := ite_none_right_eq_some.1 h
    exact .dial hc.1 hc.2
  | async =>
    simp only [step] at h
    split at h
    · cases h
    · next hjobs =>
      obtain ⟨l, hl, rfl⟩ := map_eq_some_iff.1 h
      exact .onClose hjobs hl
    · next hjobs =>
      obtain ⟨l, hl, rfl⟩ := map_eq_some_iff.1 h
      exact .onConnected hjobs hl
  | stop =>
    obtain ⟨hstop, ⟨⟩⟩ := ite_none_left_eq_some.1 h
    exact .stop (Bool.eq_false_iff.2 hstop)
  | asyncRead k fails =>
    obtain ⟨w, hw, h⟩ := bind_eq_some_iff.1 h
    obtain ⟨l, hl, rfl⟩ := map_eq_some_iff.1 h
    refine .asyncRead hw hl ?_
    split
    · exact .inr rfl
    · exact .inl rfl
  | wait q reports =>
    obtain ⟨p, hp, h⟩ := bind_eq_some_iff.1 h
    obtain ⟨hc, h⟩ := ite_none_right_eq_some.1 h
    obtain ⟨batch, hbatch, rfl⟩ := map_eq_some_iff.1 h
    exact .wait hp hc.2.1 hbatch
  | next q =>
    obtain ⟨p, hp, h⟩ := bind_eq_some_iff.1 h
    simp only [State.pollerStep] at h
    split at h
    · next hcurrent hbatch =>
      split at h
      · next hconn =>
        cases h
        exact .skip hp hcurrent hbatch hconn
      · next hconn =>
        obtain ⟨l, hl, rfl⟩ := map_eq_some_iff.1 h
        exact .next hp hcurrent hbatch hconn hl
    · cases h
  | handle q fails =>
    obtain ⟨p, hp, h⟩ := bind_eq_some_iff.1 h
    obtain ⟨w, hw, h⟩ := bind_eq_some_iff.1 h
    obtain ⟨l, hl, rfl⟩ := map_eq_some_iff.1 h
    exact .handle hp hw hl (State.handle_effect _ _ _ _)
  | _ =>
    obtain ⟨l, hl, h⟩ := bind_eq_some_iff.1 h
    exact State.linkStep_cases rfl hl h

end Registry

end Nbio.Net
