import Nbio.Go.Text

/-!
# The write path of a unix connection

`Conn` on the unix systems: data that the kernel does not take at once waits in `writeList`, as
buffers or as pieces of files, and the poller calls `flush` when the descriptor is writable.

What the kernel answers to each system call is given by a `Kernel`, indexed by the number of
the call, so that a statement for every `Kernel` is one for every choice of answers.  A loop
that makes system calls takes the number of iterations it is followed for; when they are used
up the call is `running`, and the state is that of a moment in the middle of the call.  Besides
its own fields a `Conn` records what its surroundings have seen: the bytes accepted by the
kernel, the sizes given to `onWrittenSize`, the registration in epoll, what was released.
-/

namespace Nbio.Net

open Nbio.Go

inductive Errno where
  | eagain
  | eintr
  | eexist
  | enoent
  | other (code : Nat)
deriving DecidableEq, Repr

inductive Err where
  | errno (e : Errno)
  | text (message : Bytes)
deriving DecidableEq, Repr

/-- `net.ErrClosed`. -/
def netErrClosed : Err := .text (ascii "use of closed network connection")

def errOverflow : Err := .text (ascii "write overflow")

/-- The errors that only mean "try again". -/
def Errno.isRetry : Errno → Bool
  | .eagain => true
  | .eintr => true
  | _ => false

/-- Whether an error of `write` leaves the connection open. -/
def Err.isRetry : Err → Bool
  | .errno e => e.isRetry
  | .text _ => false

inductive ConnType where
  | tcp
  | unix
  | udpServer
  | udpClientFromDial
  | udpClientFromRead
deriving DecidableEq, Repr

/-- Whether the connection is a stream: TCP or a unix stream. -/
def ConnType.isStream : ConnType → Bool
  | .tcp => true
  | .unix => true
  | _ => false

/-- What epoll reports for a descriptor, besides errors and hang-ups. -/
inductive Interest where
  | read
  | readWrite
deriving DecidableEq, Repr

/-- The answers of the kernel to the system calls, by the number of the call. -/
structure Kernel where
  write : Nat → Except Errno Nat
  sendto : Nat → Option Errno
  sendfile : Nat → Except Errno Nat
  dup : Nat → Except Errno Nat
  epollCtl : Nat → Option Errno

/-! ## Buffers -/

/-- A slice of the allocator's memory. -/
structure Buffer where
  data : Bytes
  cap : Nat
deriving DecidableEq, Repr

/-- `BodyAllocator`: the capacity it gives for a size, and what the memory holds. -/
structure Allocator where
  cap : Nat → Nat
  contents : Nat → UInt8

namespace Allocator

def malloc (a : Allocator) (size : Nat) : Buffer :=
  { data := (List.range size).map a.contents, cap := max size (a.cap size) }

def append (a : Allocator) (b : Buffer) (more : Bytes) : Buffer :=
  if b.data.length + more.length ≤ b.cap then { b with data := b.data ++ more }
  else
    let size := b.data.length + more.length
    { data := b.data ++ more, cap := max size (a.cap size) }

end Allocator

namespace Buffer

/-- `*b = (*b)[:n]`. -/
def reslice (b : Buffer) (n : Nat) : Buffer := { b with data := b.data.take n }

/-- `copy(*b, src)`. -/
def copy (b : Buffer) (src : Bytes) : Buffer :=
  { b with data := src.take b.data.length ++ b.data.drop src.length }

end Buffer

/-- What the write path reads of `Engine`. -/
structure Engine where
  maxWriteBufferSize : Int
  onWrittenSize : Bool
  /-- Whether `EpollMod` is `EPOLLET`. -/
  edgeTriggered : Bool
  /-- Whether `EPOLLONESHOT` is set. -/
  oneshot : Bool
  /-- The length of `connsUnix`. -/
  maxOpenFiles : Nat
  bodyAllocator : Allocator

def Engine.isOneshot (g : Engine) : Bool := g.edgeTriggered && g.oneshot

def maxWriteCacheOrFlushSize : Nat := 1024 * 64

def maxSendfileSize : Nat := 4 * 2 ^ 20

/-- `toWrite`, with what the file behind `fd` holds; `id` is the number of entries that the
connection queued before this one. -/
structure ToWrite where
  id : Nat
  fd : Nat
  buf : Option Buffer
  offset : Nat
  remain : Int
  file : Bytes
deriving DecidableEq, Repr

structure Conn where
  fd : Nat
  typ : ConnType
  closed : Bool
  closeErr : Option Err
  left : Int
  writeList : List ToWrite
  queued : Nat
  isWAdded : Bool
  wTimer : Bool
  /-- Whether `p` is set. -/
  added : Bool
  onConnected : Bool
  calls : Nat
  accepted : Bytes
  /-- The sizes that `onWrittenSize` was called with. -/
  sizes : List Nat
  /-- The registration of the descriptor in epoll. -/
  epoll : Option Interest
  /-- The entries given to `releaseToWrite`. -/
  released : List ToWrite
  /-- The errors given to `onClose`. -/
  closes : List (Option Err)
deriving DecidableEq, Repr

/-- A connection as `NBConn` and `DialAsyncTimeout` make it. -/
def newConn (fd : Nat) (typ : ConnType) : Conn :=
  { fd := fd, typ := typ, closed := false, closeErr := none, left := 0, writeList := [],
    queued := 0, isWAdded := false, wTimer := false, added := false, onConnected := false,
    calls := 0, accepted := [], sizes := [], epoll := none, released := [], closes := [] }

namespace Conn

variable (g : Engine) (k : Kernel)

/-! ## System calls -/

/-- `write(2)`: the count and the error. -/
def sysWrite (c : Conn) (b : Bytes) : (Int × Option Errno) × Conn :=
  match k.write c.calls with
  | .ok n =>
    let n := min n b.length
    ((n, none), { c with calls := c.calls + 1, accepted := c.accepted ++ b.take n })
  | .error e => ((-1, some e), { c with calls := c.calls + 1 })

/-- `sendfile(2)` of at most `count` bytes of a file from `offset` on. -/
def sysSendfile (c : Conn) (file : Bytes) (offset count : Nat) : (Int × Option Errno) × Conn :=
  match k.sendfile c.calls with
  | .ok n =>
    let n := min n (min count (file.length - offset))
    ((n, none),
      { c with calls := c.calls + 1, accepted := c.accepted ++ (file.drop offset).take n })
  | .error e => ((-1, some e), { c with calls := c.calls + 1 })

def sysDup (c : Conn) : Except Errno Nat × Conn :=
  (k.dup c.calls, { c with calls := c.calls + 1 })

/-- `sendto(2)` of a datagram. -/
def sysSendto (c : Conn) (b : Bytes) : Option Errno × Conn :=
  match k.sendto c.calls with
  | none => (none, { c with calls := c.calls + 1, accepted := c.accepted ++ b })
  | some e => (some e, { c with calls := c.calls + 1 })

def epollAdd (c : Conn) (i : Interest) : Option Errno × Conn :=
  match k.epollCtl c.calls, c.epoll with
  | some e, _ => (some e, { c with calls := c.calls + 1 })
  | none, some _ => (some .eexist, { c with calls := c.calls + 1 })
  | none, none => (none, { c with calls := c.calls + 1, epoll := some i })

def epollMod (c : Conn) (i : Interest) : Option Errno × Conn :=
  match k.epollCtl c.calls, c.epoll with
  | some e, _ => (some e, { c with calls := c.calls + 1 })
  | none, none => (some .enoent, { c with calls := c.calls + 1 })
  | none, some _ => (none, { c with calls := c.calls + 1, epoll := some i })

/-- `poller.addRead`: with edge triggering and no ONESHOT, writing is registered too, once. -/
def pollerAddRead (c : Conn) : Option Errno × Conn :=
  if g.edgeTriggered && !g.oneshot then c.epollAdd k .readWrite else c.epollAdd k .read

def pollerAddReadWrite (c : Conn) : Option Errno × Conn := c.epollAdd k .readWrite

def pollerResetRead (c : Conn) : Option Errno × Conn :=
  if g.edgeTriggered && !g.oneshot then (none, c) else c.epollMod k .read

def pollerModWrite (c : Conn) : Option Errno × Conn :=
  if g.edgeTriggered && !g.oneshot then (none, c) else c.epollMod k .readWrite

/-! ## The list of what is to be written -/

/-- The branch of `newToWriteBuf` that appends an entry. -/
def appendBuffer (c : Conn) (buf : Bytes) : Conn :=
  let pbuf := (g.bodyAllocator.malloc buf.length).copy buf
  { c with
    queued := c.queued + 1
    writeList := c.writeList ++
      [{ id := c.queued, fd := 0, buf := some pbuf, offset := 0, remain := 0, file := [] }] }

def newToWriteBuf (c : Conn) (buf : Bytes) : Conn :=
  let c := { c with left := c.left + buf.length }
  match c.writeList.getLast? with
  | none => c.appendBuffer g buf
  | some tail =>
    match tail.buf with
    | none => c.appendBuffer g buf
    | some b =>
      let l := buf.length
      let tailLen := b.data.length
      if maxWriteCacheOrFlushSize < tailLen + l then c.appendBuffer g buf
      else
        let pbuf :=
          if b.cap < tailLen + l then
            ((g.bodyAllocator.malloc (tailLen + l)).reslice tailLen).copy b.data
          else b
        { c with
          writeList := c.writeList.dropLast ++
            [{ tail with buf := some (g.bodyAllocator.append pbuf buf) }] }

def newToWriteFile (c : Conn) (fd offset : Nat) (remain : Int) (file : Bytes) : Conn :=
  { c with
    queued := c.queued + 1
    writeList := c.writeList ++
      [{ id := c.queued, fd := fd, buf := none, offset := offset, remain := remain,
         file := file }] }

def releaseToWrite (c : Conn) (t : ToWrite) : Conn := { c with released := c.released ++ [t] }

/-- A call of `onWrittenSize`, if it is set. -/
def reportWritten (c : Conn) (n : Nat) : Conn :=
  if g.onWrittenSize then { c with sizes := c.sizes ++ [n] } else c

def modWrite (c : Conn) : Conn :=
  if !c.closed && !c.isWAdded then ({ c with isWAdded := true }.pollerModWrite g k).2 else c

def resetRead (c : Conn) : Conn :=
  if !c.closed && c.isWAdded then ({ c with isWAdded := false }.pollerResetRead g k).2 else c

def closeWithErrorWithoutLock (c : Conn) (err : Option Err) : Conn :=
  let c := { c with closeErr := err, released := c.released ++ c.writeList, writeList := [] }
  -- `deleteConn`, which tells the engine
  let c := if c.added && c.typ != .udpServer then { c with closes := c.closes ++ [err] } else c
  -- closing the descriptor takes it out of epoll
  { c with epoll := none }

/-- The end of a call that has failed: mark the connection closed and close it. -/
def fail (c : Conn) (err : Err) : Conn :=
  { c with closed := true }.closeWithErrorWithoutLock (some err)

def closeWithError (c : Conn) (err : Option Err) : Conn :=
  if c.closed then c
  else { c with closed := true, wTimer := false }.closeWithErrorWithoutLock err

def overflow (c : Conn) (n : Nat) : Bool :=
  0 < g.maxWriteBufferSize && g.maxWriteBufferSize < c.left + n

/-! ## `Write` -/

/-- `doWrite`: the count and the error. -/
def doWrite (c : Conn) (b : Bytes) : (Int × Option Errno) × Conn :=
  let (r, c) : (Int × Option Errno) × Conn :=
    match c.typ with
    | .tcp => c.sysWrite k b
    | .unix => c.sysWrite k b
    | .udpServer => ((0, none), c)
    | .udpClientFromDial => c.sysWrite k b
    | .udpClientFromRead =>
      match c.sysSendto k b with
      | (none, c) => ((b.length, none), c)
      | (some e, c) => ((0, some e), c)
  (r, if 0 < r.1 then c.reportWritten g r.1.toNat else c)

/-- The part of `write` behind a first attempt that sent `n` bytes: what is left of a stream is
queued. -/
def queueRest (c : Conn) (n : Int) (b : Bytes) : (Int × Option Err) × Conn :=
  let n := n.toNat
  ((b.length, none),
    if n < b.length ∧ c.typ.isStream then c.newToWriteBuf g (b.drop n) else c)

def write (c : Conn) (b : Bytes) : (Int × Option Err) × Conn :=
  if b = [] then ((0, none), c)
  else if c.overflow g b.length then ((-1, some errOverflow), c)
  else if c.writeList = [] then
    let (r, c) := c.doWrite g k b
    match r.2 with
    | some e => if e.isRetry then c.queueRest g r.1 b else ((r.1, some (.errno e)), c)
    | none => c.queueRest g r.1 b
  else ((b.length, none), c.newToWriteBuf g b)

/-- The end of `Write` and `Writev` that has not met an error which closes the connection. -/
def settle (c : Conn) : Conn :=
  if c.writeList = [] then { c with wTimer := false } else c.modWrite g k

/-- The end of `Write` and `Writev`, given what `write` or `writev` returned. -/
def afterWrite (c : Conn) (r : Int × Option Err) : (Int × Option Err) × Conn :=
  match r.2 with
  | some e => if e.isRetry then (r, c.settle g k) else (r, c.fail e)
  | none => (r, c.settle g k)

/-- `Write`: the count and the error. -/
def Write (c : Conn) (b : Bytes) : (Int × Option Err) × Conn :=
  if c.closed then ((-1, some netErrClosed), c)
  else
    let (r, c) := c.write g k b
    c.afterWrite g k r

/-! ## `Writev` -/

/-- `writev(2)` by way of `writev_linux.go`: no call is made if there is nothing to write. -/
def sysWritev (c : Conn) (bs : List Bytes) : (Int × Option Errno) × Conn :=
  if bs.flatten = [] then ((0, none), c) else c.sysWrite k bs.flatten

/-- The loop of `writev` over its slices when `n` bytes have been sent; it ends when `n` is
used up, whatever slices are left. -/
def queueCut (c : Conn) : List Bytes → Nat → Conn
  | [], _ => c
  | b :: bs, n =>
    if n = 0 then c
    else if n < b.length then
      queueCut ((c.reportWritten g n).newToWriteBuf g (b.drop n)) bs 0
    else queueCut (c.reportWritten g b.length) bs (n - b.length)

def writev (c : Conn) (bs : List Bytes) : (Int × Option Err) × Conn :=
  let size := bs.flatten.length
  if c.overflow g size then ((-1, some errOverflow), c)
  else if c.writeList ≠ [] then ((size, none), bs.foldl (newToWriteBuf g) c)
  else
    let (r, c) := c.sysWritev k bs
    if 0 < r.1 then
      ((r.1, r.2.map .errno), if r.1 < size then c.queueCut g bs r.1.toNat else c)
    else ((0, r.2.map .errno), c)

/-- `Writev`: the count and the error. -/
def Writev (c : Conn) (bs : List Bytes) : (Int × Option Err) × Conn :=
  if c.closed then ((0, some netErrClosed), c)
  else
    let (r, c) : (Int × Option Err) × Conn :=
      match bs with
      | [b] => c.write g k b
      | bs => c.writev g k bs
    c.afterWrite g k r

/-! ## `Sendfile` -/

/-- What becomes of a call that makes system calls in a loop. -/
inductive Outcome where
  | running
  | panics
  | returns (n : Int) (err : Option Err)
deriving DecidableEq, Repr

/-- An `os.File`: where it stands, the size it reports, what it holds, and the first error of
the calls that `Sendfile` makes to find this out. -/
structure File where
  offset : Nat
  size : Nat
  contents : Bytes
  err : Option Errno
deriving DecidableEq, Repr

/-- The loop of `Sendfile`, which returns `total` when it is left. -/
def sendfileLoop (file : Bytes) (total : Int) : Nat → Conn → Nat → Int → Outcome × Conn
  | 0, c, _, _ => (.running, c)
  | fuel + 1, c, offset, remain =>
    if remain ≤ 0 then (.returns total none, c)
    else
      let (r, c) := c.sysSendfile k file offset (min maxSendfileSize remain.toNat)
      if r.1 = 0 ∧ r.2 = none then (.returns total none, c)
      else
        let offset := offset + r.1.toNat
        let remain := remain - r.1.toNat
        match r.2 with
        | none => sendfileLoop file total fuel c offset remain
        | some .eintr => sendfileLoop file total fuel c offset remain
        | some .eagain =>
          match c.sysDup k with
          | (.ok fd, c) =>
            (.returns total none, (c.newToWriteFile fd offset remain file).modWrite g k)
          | (.error _, c) => (.returns total none, c)
        | some e => (.returns 0 (some (.errno e)), c.fail (.errno e))

/-- The number of bytes that `Sendfile` is to send. -/
def File.toSend (f : File) (remain : Int) : Int :=
  if remain ≤ 0 ∨ (f.size : Int) - f.offset < remain then (f.size : Int) - f.offset else remain

def Sendfile (fuel : Nat) (c : Conn) (f : Option File) (remain : Int) : Outcome × Conn :=
  match f with
  | none => (.returns 0 none, c)
  | some f =>
    if c.closed then (.returns 0 (some netErrClosed), c)
    else
      match f.err with
      | some e => (.returns 0 (some (.errno e)), c)
      | none =>
        let remain := f.toSend remain
        if c.writeList ≠ [] then
          match c.sysDup k with
          | (.ok fd, c) =>
            (.returns remain none, c.newToWriteFile fd f.offset remain f.contents)
          | (.error e, c) => (.returns 0 (some (.errno e)), c)
        else c.sendfileLoop g k f.contents remain fuel f.offset remain

/-! ## `flush` -/

/-- `writeBuffer` of `flush` on a buffer at the head of the list: the error. -/
def writeBuffer (c : Conn) (head : ToWrite) (b : Buffer) (rest : List ToWrite) :
    Option Errno × Conn :=
  let buf := b.data.drop head.offset
  let (r, c) := c.sysWrite k buf
  if 0 < r.1 then
    let n := r.1.toNat
    let c := c.reportWritten g n
    let head := { head with offset := head.offset + n }
    let c := { c with left := c.left - n }
    (r.2,
      if buf.length = n then { c.releaseToWrite head with writeList := rest }
      else { c with writeList := head :: rest })
  else (r.2, c)

/-- One iteration of the loop in `writeFile` of `flush`: the error. -/
def writeFile (c : Conn) (head : ToWrite) (rest : List ToWrite) : Option Errno × Conn :=
  let (r, c) := c.sysSendfile k head.file head.offset head.remain.toNat
  if 0 < r.1 then
    let n := r.1.toNat
    let c := c.reportWritten g n
    let head := { head with remain := head.remain - n, offset := head.offset + n }
    (r.2,
      if head.remain ≤ 0 then { c.releaseToWrite head with writeList := rest }
      else { c with writeList := head :: rest })
  else (r.2, c)

/-- What `flush` does about the head of the list; `none` where it would use a nil buffer.  The
loop of `writeFile` goes on with the same entry as long as something remains of it, as the loop
around it does, so that one iteration stands for both; with nothing remaining it does nothing. -/
def flushHead (c : Conn) (head : ToWrite) (rest : List ToWrite) : Option (Option Errno × Conn) :=
  if head.fd = 0 then head.buf.map fun b => c.writeBuffer g k head b rest
  else if 0 < head.remain then some (c.writeFile g k head rest)
  else some (none, c)

def flushLoop : Nat → Conn → Outcome × Conn
  | 0, c => (.running, c)
  | fuel + 1, c =>
    match c.writeList with
    | [] => (.returns 0 none, c.resetRead g k)
    | head :: rest =>
      match c.flushHead g k head rest with
      | none => (.panics, c)
      | some (none, c) => flushLoop fuel c
      | some (some .eintr, c) => flushLoop fuel c
      | some (some .eagain, c) =>
        (.returns 0 none, if g.isOneshot then (c.pollerModWrite g k).2 else c)
      | some (some e, c) => (.returns 0 (some (.errno e)), c.fail (.errno e))

/-- `flush`, which returns only an error. -/
def flush (fuel : Nat) (c : Conn) : Outcome × Conn :=
  if c.closed then (.returns 0 (some netErrClosed), c)
  else if c.writeList = [] then (.returns 0 none, c)
  else c.flushLoop g k fuel

end Conn

end Nbio.Net
