import Nbio.Go.Slice
import Nbio.Net.WriteStream

/-!
# The events of a connection

What `readWriteLoop` does with one event of a stream connection: the part for writing, the loop that
reads into the buffer of the poller and hands over what it has read, and the close for an event that
reports an error or a hang-up.

The peer's FIN comes with its last bytes, and the close that follows would drop what has not been
read.  For a hang-up the loop therefore reads, whatever `MaxConnReadTimesPerEventLoop` says, until
`read(2)` returns 0.
-/

namespace Nbio.Net

open Nbio.Go List

/-- The bits of an event that `readWriteLoop` looks at. -/
structure EpollEvents where
  epollIn : Bool
  epollPri : Bool
  epollOut : Bool
  epollErr : Bool
  epollHup : Bool
  epollRdhup : Bool
deriving DecidableEq, Repr

namespace EpollEvents

def read (ev : EpollEvents) : Bool := ev.epollPri || ev.epollIn

def write (ev : EpollEvents) : Bool := ev.epollOut

def error (ev : EpollEvents) : Bool := ev.epollErr || ev.epollHup || ev.epollRdhup

def peerHangup (ev : EpollEvents) : Bool := ev.epollHup || ev.epollRdhup

end EpollEvents

def ioEOF : Err := .text (ascii "EOF")

/-- The handlers of the engine, by what they do to the connection, and what `readWriteLoop` reads
of its configuration. -/
structure Handlers where
  onConnected : Conn → Conn
  onDataPtr : Conn → Bytes → Conn
  onRead : Option (Conn → Conn)
  asyncReadInPoller : Bool
  maxConnReadTimesPerEventLoop : Int

/-- The answer of `read(2)`: how many bytes the kernel has a mind to deliver, or an error. -/
inductive ReadAnswer where
  | bytes (wish : Nat)
  | error (e : Errno)
deriving DecidableEq, Repr

inductive EventCall where
  | onConnected
  | onDataPtr (data : Bytes)
  | onRead
  | asyncRead
  | closed
deriving DecidableEq, Repr

structure Serving where
  conn : Conn
  readBuffer : Slice
  /-- What the kernel has received and not delivered. -/
  received : Bytes
  reads : Nat
  calls : List EventCall
deriving DecidableEq, Repr

namespace Serving

def called (s : Serving) (call : EventCall) : Serving := { s with calls := s.calls ++ [call] }

/-- The connection behind a method or a handler, either of which may have closed it. -/
def withConn (s : Serving) (c : Conn) : Serving :=
  { s with
    conn := c
    calls := s.calls ++ if !s.conn.closed && c.closed then [.closed] else [] }

/-- How many bytes `read(2)` delivers into `len` bytes when there are `there`: at least one if it
can. -/
def readCount (len there wish : Nat) : Nat := min (max 1 wish) (min len there)

section

variable (answers : Nat → ReadAnswer)

/-- `read(2)` of a socket whose peer has closed. -/
def sysRead (s : Serving) : (Int × Option Errno) × Serving :=
  match answers s.reads with
  | .error e => ((-1, some e), { s with reads := s.reads + 1 })
  | .bytes wish =>
    let n := readCount s.readBuffer.len s.received.length wish
    ((n, none),
      { s with
        readBuffer := s.readBuffer.copyAt 0 (s.received.take n)
        received := s.received.drop n
        reads := s.reads + 1 })

/-- `ReadAndGetConn` of a stream connection. -/
def ReadAndGetConn (s : Serving) : (Int × Option Err) × Serving :=
  if s.conn.closed then ((0, some netErrClosed), s)
  else
    let ((n, err), s) := s.sysRead answers
    ((n, err.map .errno), s)

variable (h : Handlers)

/-- What has been read is handed over, in a buffer that is cut to it. -/
def deliver (s : Serving) (n : Int) : Serving :=
  if 0 < n then
    let pbuf := s.readBuffer.cut n.toNat
    (({ s with readBuffer := pbuf }.called (.onDataPtr pbuf.bytes))).withConn
      (h.onDataPtr s.conn pbuf.bytes)
  else s

def payback (s : Serving) : Serving :=
  { s with readBuffer := s.readBuffer.cut s.readBuffer.cap }

def closeWithError (s : Serving) (err : Err) : Serving :=
  s.withConn (s.conn.closeWithError (some err))

/-- One turn of the loop: a buffer is borrowed, read into, handed over and paid back. -/
def readOnce (s : Serving) : (Int × Option Err) × Serving :=
  let (r, s) := s.ReadAndGetConn answers
  (r, (s.deliver h r.1).payback)

/-- The loop over the reads; `none` is a loop that goes on. -/
def readLoop (drainPeer : Bool) (readLimit : Int) : Nat → Nat → Serving → Option Serving
  | 0, _, _ => none
  | fuel + 1, i, s =>
    if readLimit < 0 ∨ i < readLimit then
      let bufLen := s.readBuffer.len
      let ((n, err), s) := s.readOnce answers h
      match err with
      | some (.errno .eintr) => readLoop drainPeer readLimit fuel (i + 1) s
      | some (.errno .eagain) => some s
      | some err => some (s.closeWithError err)
      | none =>
        if drainPeer then
          if n = 0 then some s else readLoop drainPeer readLimit fuel (i + 1) s
        else if n < bufLen && s.conn.typ.isStream then some s
        else readLoop drainPeer readLimit fuel (i + 1) s
    else some s

variable (g : Engine) (k : Kernel)

def ResetPollerEvent (s : Serving) : Serving :=
  if g.isOneshot && !s.conn.closed then
    if s.conn.writeList = [] then s.withConn (s.conn.pollerResetRead g k).2
    else s.withConn (s.conn.pollerModWrite g k).2
  else s

/-- The `onConnected` callback, and what follows it. -/
def connected (s : Serving) : Serving :=
  let s := (s.called .onConnected).withConn (h.onConnected s.conn)
  s.withConn ({ s.conn with onConnected := false }.resetRead g k)

/-- The part for writing; `none` is a `flush` that does not return. -/
def writeEvent (fuel : Nat) (ev : EpollEvents) (s : Serving) : Option Serving :=
  if ev.write then
    if s.conn.onConnected then some (s.connected h g k)
    else
      match s.conn.flush g k fuel with
      | (.returns _ _, c) => some (s.withConn c)
      | _ => none
  else some s

def asyncReadEnabled : Bool := h.asyncReadInPoller && g.edgeTriggered

def drainPeer (ev : EpollEvents) (s : Serving) : Bool :=
  ev.peerHangup && h.onRead.isNone && !asyncReadEnabled h g && s.conn.typ.isStream

def readEvent (fuel : Nat) (ev : EpollEvents) (s : Serving) : Option Serving :=
  let drainPeer := s.drainPeer h g ev
  if ev.read || drainPeer then
    match h.onRead with
    | some onRead => some ((s.called .onRead).withConn (onRead s.conn))
    | none =>
      if asyncReadEnabled h g then some (s.called .asyncRead)
      else
        let readLimit := if drainPeer then -1 else h.maxConnReadTimesPerEventLoop
        (s.readLoop answers h drainPeer readLimit fuel 0).map fun s =>
          if g.isOneshot then s.ResetPollerEvent g k else s
  else some s

/-- What `readWriteLoop` does with an event; `none` is a loop that goes on. -/
def serve (fuel : Nat) (ev : EpollEvents) (s : Serving) : Option Serving := do
  let s ← s.writeEvent h g k fuel ev
  let s ← s.readEvent answers h g k fuel ev
  some (if ev.error then s.closeWithError ioEOF else s)

end

/-! ## The drain -/

/-- The connection is open, and the buffer is borrowed in its full length. -/
structure Ready (s : Serving) : Prop where
  isOpen : s.conn.closed = false
  full : s.readBuffer.len = s.readBuffer.cap
  size : 1 ≤ s.readBuffer.cap

variable {answers : Nat → ReadAnswer} {h : Handlers} {g : Engine} {k : Kernel} {s : Serving}

theorem withConn_of_open {c : Conn} (hopen : c.closed = false) :
    s.withConn c = { s with conn := c } := by
  simp [withConn, hopen]

theorem payback_of_full (hfull : s.readBuffer.len = s.readBuffer.cap) : s.payback = s := by
  rw [payback, Slice.cut_cap hfull]

theorem readOnce_eintr (hs : s.Ready) (ha : answers s.reads = .error .eintr) :
    s.readOnce answers h = ((-1, some (.errno .eintr)), { s with reads := s.reads + 1 }) := by
  have hread : s.ReadAndGetConn answers =
      ((-1, some (.errno .eintr)), { s with reads := s.reads + 1 }) := by
    rw [ReadAndGetConn, if_neg (by rw [hs.isOpen]; decide), sysRead, ha]
    rfl
  rw [readOnce, hread]
  dsimp only
  exact congrArg _ (payback_of_full hs.full)

theorem readCount_le (len there wish : Nat) :
    readCount len there wish ≤ len ∧ readCount len there wish ≤ there := by
  unfold readCount
  omega

theorem readCount_eq_zero_iff {len : Nat} (hlen : 1 ≤ len) (there wish : Nat) :
    readCount len there wish = 0 ↔ there = 0 := by
  unfold readCount
  omega

theorem deliver_payback (hkeep : ∀ c data, c.closed = false → (h.onDataPtr c data).closed = false)
    (hs : s.Ready) {n : Nat} (hn : n ≤ s.readBuffer.len) (hthere : n ≤ s.received.length) :
    let data := s.received.take n
    let s' := ({ s with
      readBuffer := s.readBuffer.copyAt 0 data
      received := s.received.drop n
      reads := s.reads + 1 }.deliver h n).payback
    s'.Ready ∧ s'.received = s.received.drop n ∧ s'.reads = s.reads + 1 ∧
      s'.calls = s.calls ++ if n = 0 then [] else [.onDataPtr data] := by
  intro data s'
  have hdata : data.length = n := by rw [length_take, Nat.min_eq_left hthere]
  have hcap : (s.readBuffer.copyAt 0 data).cap = s.readBuffer.cap :=
    Slice.cap_copyAt _ (Nat.zero_le _) _
  by_cases hzero : n = 0
  · have heq : s' = { s with
        readBuffer := s.readBuffer.copyAt 0 data
        received := s.received.drop n
        reads := s.reads + 1 } := by
      rw [show s' = payback _ from rfl, deliver, if_neg (by omega)]
      exact payback_of_full (hs.full.trans hcap.symm)
    rw [heq, if_pos hzero, append_nil]
    exact ⟨⟨hs.isOpen, hs.full.trans hcap.symm, hcap ▸ hs.size⟩, rfl, rfl, rfl⟩
  · have hbytes : ((s.readBuffer.copyAt 0 data).cut n).bytes = data := by
      have hfits : data.length ≤ s.readBuffer.len := by omega
      have hread := Slice.bytes_copyAt_cut s.readBuffer hfits
      rwa [hdata] at hread
    have heq : s' = { s with
        conn := h.onDataPtr s.conn data
        readBuffer := (s.readBuffer.copyAt 0 data).cut (s.readBuffer.copyAt 0 data).cap
        received := s.received.drop n
        reads := s.reads + 1
        calls := s.calls ++ [.onDataPtr data] } := by
      rw [show s' = payback _ from rfl, deliver, if_pos (by omega)]
      dsimp only [called]
      rw [Int.toNat_natCast, hbytes, withConn_of_open (hkeep _ _ hs.isOpen)]
      rfl
    rw [heq, if_neg hzero]
    exact ⟨⟨hkeep _ _ hs.isOpen, Nat.min_self _, hcap ▸ hs.size⟩, rfl, rfl, rfl⟩

theorem readOnce_bytes (hs : s.Ready) {wish : Nat} (ha : answers s.reads = .bytes wish) :
    let n := readCount s.readBuffer.len s.received.length wish
    s.readOnce answers h = (((n : Int), none), ({ s with
      readBuffer := s.readBuffer.copyAt 0 (s.received.take n)
      received := s.received.drop n
      reads := s.reads + 1 }.deliver h n).payback) := by
  intro n
  have hread : s.ReadAndGetConn answers = (((n : Int), none), { s with
      readBuffer := s.readBuffer.copyAt 0 (s.received.take n)
      received := s.received.drop n
      reads := s.reads + 1 }) := by
    rw [ReadAndGetConn, if_neg (by rw [hs.isOpen]; decide), sysRead, ha]
    rfl
  rw [readOnce, hread]

/-- What a drain hands over: the bytes that the kernel holds, in order, on a connection that stays
open. -/
def Drained (s s' : Serving) : Prop :=
  s'.conn.closed = false ∧
    ∃ pieces : List Bytes, pieces.flatten = s.received ∧
      s'.calls = s.calls ++ pieces.map .onDataPtr

theorem readLoop_eintr (hs : s.Ready) (ha : answers s.reads = .error .eintr) (fuel i : Nat) :
    s.readLoop answers h true (-1) (fuel + 1) i =
      { s with reads := s.reads + 1 }.readLoop answers h true (-1) fuel (i + 1) := by
  rw [readLoop, if_pos (.inl (by decide)), readOnce_eintr hs ha]

section

variable (hkeep : ∀ c data, c.closed = false → (h.onDataPtr c data).closed = false)
include hkeep

theorem readLoop_bytes (hs : s.Ready) {wish : Nat} (ha : answers s.reads = .bytes wish) (i : Nat)
    (hrest : ∀ s' : Serving, s'.Ready → s'.received.length < s.received.length →
      ∃ fuel s'', s'.readLoop answers h true (-1) fuel (i + 1) = some s'' ∧ Drained s' s'') :
    ∃ fuel s', s.readLoop answers h true (-1) fuel i = some s' ∧ Drained s s' := by
  have honce := readOnce_bytes (h := h) hs ha
  have hle := readCount_le s.readBuffer.len s.received.length wish
  have hsize : 1 ≤ s.readBuffer.len := by
    rw [hs.full]
    exact hs.size
  have hzero := readCount_eq_zero_iff hsize s.received.length wish
  generalize readCount s.readBuffer.len s.received.length wish = n at honce hle hzero
  obtain ⟨hs', hreceived, -, hcalls⟩ := deliver_payback hkeep hs hle.1 hle.2
  dsimp only at honce hs' hreceived hcalls
  generalize payback _ = s' at honce hs' hreceived hcalls
  by_cases hn : n = 0
  · refine ⟨1, s', ?_, hs'.isOpen, [], ?_, ?_⟩
    · rw [readLoop, honce, hn]
      rfl
    · exact (length_eq_zero_iff.1 (hzero.1 hn)).symm
    · rw [hcalls, if_pos hn]
      rfl
  · have hshort : s'.received.length < s.received.length := by
      rw [hreceived, length_drop]
      omega
    obtain ⟨fuel, s'', hloop, hopen, pieces, hpieces, hlater⟩ := hrest s' hs' hshort
    refine ⟨fuel + 1, s'', ?_, hopen, s.received.take n :: pieces, ?_, ?_⟩
    · rw [readLoop, if_pos (.inl (by decide)), honce]
      dsimp only
      rw [if_pos rfl, if_neg (by omega), hloop]
    · rw [flatten_cons, hpieces, hreceived, take_append_drop]
    · rw [hlater, hcalls, if_neg hn, append_assoc]
      rfl

/-- The loop for a hang-up ends and drains the socket, if `read(2)` only fails with EINTR, and not
for ever. -/
theorem readLoop_drains
    (hanswers : ∀ i, answers i = .error .eintr ∨ ∃ wish, answers i = .bytes wish)
    (hends : ∀ i, ∃ j, i ≤ j ∧ answers j ≠ .error .eintr) (hs : s.Ready) (i : Nat) :
    ∃ fuel s', s.readLoop answers h true (-1) fuel i = some s' ∧ Drained s s' := by
  -- on what the kernel holds, and for one read on the number of EINTR results before it
  induction hlen : s.received.length using Nat.strong_induction_on generalizing s i with
  | _ len ih =>
    obtain ⟨j, hj, hne⟩ := hends s.reads
    obtain ⟨m, rfl⟩ : ∃ m, j = s.reads + m := ⟨j - s.reads, by omega⟩
    clear hj
    induction m generalizing s i with
    | zero =>
      obtain ⟨wish, ha⟩ := (hanswers s.reads).resolve_left hne
      exact readLoop_bytes hkeep hs ha i fun s' hs' hshort => ih _ (by omega) hs' (i + 1) rfl
    | succ m ihm =>
      rcases hanswers s.reads with ha | ⟨wish, ha⟩
      · have hs' : { s with reads := s.reads + 1 }.Ready := ⟨hs.isOpen, hs.full, hs.size⟩
        have hne' : answers (s.reads + 1 + m) ≠ .error .eintr := by
          rw [show s.reads + 1 + m = s.reads + (m + 1) by omega]
          exact hne
        obtain ⟨fuel, s', hloop, hdrained⟩ := ihm hs' (i + 1) hlen hne'
        exact ⟨fuel + 1, s', (readLoop_eintr hs ha fuel i).trans hloop, hdrained⟩
      · exact readLoop_bytes hkeep hs ha i fun s' hs' hshort => ih _ (by omega) hs' (i + 1) rfl

end

/-! ## The event -/

end Serving

/-- The handlers do not close the connection, nor make another of it. -/
structure Handlers.KeepOpen (h : Handlers) : Prop where
  onConnected : ∀ c, c.closed = false →
    (h.onConnected c).closed = false ∧ (h.onConnected c).typ = c.typ
  onDataPtr : ∀ c data, c.closed = false → (h.onDataPtr c data).closed = false

namespace Serving

variable {answers : Nat → ReadAnswer} {h : Handlers} {g : Engine} {k : Kernel} {s : Serving}

theorem writeEvent_open (hkeep : h.KeepOpen) (hs : s.Ready) (hlist : s.conn.writeList = [])
    (ev : EpollEvents) :
    ∃ s', (∀ fuel, s.writeEvent h g k fuel ev = some s') ∧ s'.Ready ∧
      s'.conn.typ = s.conn.typ ∧ s'.received = s.received ∧
      s'.calls = s.calls ++ if ev.write && s.conn.onConnected then [.onConnected] else [] := by
  by_cases hw : ev.write = true
  swap
  · refine ⟨s, fun fuel => if_neg hw, hs, rfl, rfl, ?_⟩
    rw [Bool.not_eq_true] at hw
    rw [hw, Bool.false_and, if_neg (by decide), append_nil]
  rw [hw, Bool.true_and]
  by_cases hconn : s.conn.onConnected = true
  · obtain ⟨hopen, htyp⟩ := hkeep.onConnected s.conn hs.isOpen
    have hsame := (Conn.resetRead_registers (g := g) (k := k)
      (c := { h.onConnected s.conn with onConnected := false })).same
    have hopen' := hsame.closed.trans hopen
    have hconnected : s.connected h g k = { s.called .onConnected with
        conn := { h.onConnected s.conn with onConnected := false }.resetRead g k } := by
      rw [connected, withConn_of_open hopen]
      exact withConn_of_open hopen'
    refine ⟨s.connected h g k, fun fuel => (if_pos hw).trans (if_pos hconn), ?_⟩
    rw [hconnected, if_pos hconn]
    exact ⟨⟨hopen', hs.full, hs.size⟩, hsame.typ.trans htyp, rfl, rfl⟩
  · refine ⟨s, fun fuel => ?_, hs, rfl, rfl, ?_⟩
    · rw [writeEvent, if_pos hw, if_neg hconn, Conn.flush, if_neg (by rw [hs.isOpen]; decide),
        if_pos hlist]
      exact congrArg some (withConn_of_open hs.isOpen)
    · rw [if_neg hconn, append_nil]

theorem ResetPollerEvent_open (hopen : s.conn.closed = false) :
    (s.ResetPollerEvent g k).conn.closed = false ∧ (s.ResetPollerEvent g k).calls = s.calls := by
  have hread : (s.conn.pollerResetRead g k).2.closed = false := by
    unfold Conn.pollerResetRead
    split
    · exact hopen
    · exact (Conn.epollMod_registers _).same.closed.trans hopen
  have hwrite : (s.conn.pollerModWrite g k).2.closed = false :=
    Conn.pollerModWrite_registers.same.closed.trans hopen
  unfold ResetPollerEvent
  split
  · split
    · rw [withConn_of_open hread]
      exact ⟨hread, rfl⟩
    · rw [withConn_of_open hwrite]
      exact ⟨hwrite, rfl⟩
  · exact ⟨hopen, rfl⟩

theorem closeWithError_open (hopen : s.conn.closed = false) (err : Err) :
    (s.closeWithError err).conn.closed = true ∧
      (s.closeWithError err).calls = s.calls ++ [.closed] := by
  have hclosed : (s.conn.closeWithError (some err)).closed = true := by
    rw [Conn.closeWithError, if_neg (by rw [hopen]; decide)]
    unfold Conn.closeWithErrorWithoutLock
    dsimp only
    split <;> rfl
  refine ⟨hclosed, ?_⟩
  rw [closeWithError, withConn, hopen, hclosed]
  rfl

end Serving

/-- An event with EPOLLHUP or EPOLLRDHUP, whatever else it reports: all that the kernel holds is
handed over in order, and then the connection is closed. -/
theorem hangup_drains (answers : Nat → ReadAnswer) (h : Handlers) (g : Engine) (k : Kernel)
    (ev : EpollEvents) (s : Serving) (hev : ev.peerHangup = true)
    (hstream : s.conn.typ.isStream = true)
    (honRead : h.onRead = none) (hsync : Serving.asyncReadEnabled h g = false) (hs : s.Ready)
    (hlist : s.conn.writeList = []) (hkeep : h.KeepOpen)
    (hanswers : ∀ i, answers i = .error .eintr ∨ ∃ wish, answers i = .bytes wish)
    (hends : ∀ i, ∃ j, i ≤ j ∧ answers j ≠ .error .eintr) :
    ∃ fuel s', s.serve answers h g k fuel ev = some s' ∧ s'.conn.closed = true ∧
      ∃ pieces : List Bytes, pieces.flatten = s.received ∧
        s'.calls = s.calls ++ (if ev.write && s.conn.onConnected then [.onConnected] else []) ++
          pieces.map .onDataPtr ++ [.closed] := by
  -- behind the part for writing
  obtain ⟨s₁, hwrite, hs₁, htyp₁, hreceived₁, hcalls₁⟩ :=
    Serving.writeEvent_open hkeep hs hlist ev
  obtain ⟨fuel, s₂, hloop, hopen, pieces, hpieces, hcalls₂⟩ :=
    Serving.readLoop_drains hkeep.onDataPtr hanswers hends hs₁ 0
  -- behind the part for reading
  have hdrain : s₁.drainPeer h g ev = true := by
    rw [Serving.drainPeer, hev, honRead, hsync, htyp₁, hstream]
    rfl
  obtain ⟨s₃, hread, hopen₃, hcalls₃⟩ : ∃ s₃ : Serving,
      s₁.readEvent answers h g k fuel ev = some s₃ ∧ s₃.conn.closed = false ∧
        s₃.calls = s₂.calls := by
    rw [Serving.readEvent, hdrain, Bool.or_true, if_pos rfl, honRead, hsync]
    dsimp only
    rw [if_pos rfl, hloop]
    refine ⟨_, rfl, ?_⟩
    split
    · exact Serving.ResetPollerEvent_open hopen
    · exact ⟨hopen, rfl⟩
  have herror : ev.error = true := by
    rw [EpollEvents.peerHangup, Bool.or_eq_true] at hev
    rcases hev with hhup | hrdhup
    · simp [EpollEvents.error, hhup]
    · simp [EpollEvents.error, hrdhup]
  obtain ⟨hclosed, hlast⟩ := Serving.closeWithError_open hopen₃ ioEOF
  refine ⟨fuel, s₃.closeWithError ioEOF, ?_, hclosed, pieces, hpieces.trans hreceived₁, ?_⟩
  · rw [Serving.serve, hwrite, Option.bind_eq_bind, Option.bind_some, hread,
      Option.bind_some, if_pos herror]
  · rw [hlast, hcalls₃, hcalls₂, hcalls₁]

def idleHandlers : Handlers :=
  { onConnected := id, onDataPtr := fun c _ => c, onRead := none, asyncReadInPoller := false,
    maxConnReadTimesPerEventLoop := 3 }

/-- A kernel that interrupts every other call and delivers one byte at a time. -/
def interrupted (i : Nat) : ReadAnswer := if i % 2 = 0 then .error .eintr else .bytes 1

theorem hangup_drains_interrupted :
    ∃ fuel s', Serving.serve interrupted idleHandlers plainEngine shortKernel fuel
        ⟨false, false, false, false, false, true⟩
        ⟨newConn 7 .tcp, Slice.make 4, ascii "last bytes", 0, []⟩ = some s' ∧
      s'.conn.closed = true ∧ ∃ pieces : List Bytes, pieces.flatten = ascii "last bytes" ∧
        s'.calls = [] ++ [] ++ pieces.map .onDataPtr ++ [.closed] := by
  refine hangup_drains interrupted idleHandlers plainEngine shortKernel _ _ rfl rfl rfl rfl
    ⟨rfl, rfl, by decide⟩ rfl ⟨fun c hc => ⟨hc, rfl⟩, fun c _ hc => hc⟩ ?_ ?_
  · intro i
    unfold interrupted
    split
    · exact .inl rfl
    · exact .inr ⟨1, rfl⟩
  · intro i
    refine ⟨2 * i + 1, by omega, ?_⟩
    rw [interrupted]
    simp

end Nbio.Net
