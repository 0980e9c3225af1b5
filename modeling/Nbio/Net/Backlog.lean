import Nbio.Net.FlushReturns

/-!
# What waits, in lengths

How far the data of a connection gets depends on the answers of the kernel and on how long the data
is, not on what it is.  A `Backlog` has of a connection the number of the next system call, whether
writing is registered, and the lengths of what waits.  `Write` and `flush` act on it by the answers
of the kernel alone, and a connection that stays open follows it (`run_backlog`).
-/

namespace Nbio.Net

open Nbio.Go List

/-- An entry of the write list in lengths: whether it is a piece of a file, the bytes that its
buffer holds, how many it takes to be left of it, and how many are there. -/
structure Piece where
  file : Bool
  size : Option Nat
  todo : Nat
  there : Nat
deriving DecidableEq, Repr

/-- What the list has of an entry when `n` bytes of it have been sent. -/
def Piece.after (p : Piece) (n : Nat) : List Piece :=
  if n = 0 then [p]
  else if p.todo ≤ n then []
  else [{ p with todo := p.todo - n, there := p.there - n }]

/-- What the `write` with number `i` leaves of `n` bytes. -/
def Kernel.leaves (k : Kernel) (i n : Nat) : Nat :=
  match k.write i with
  | .ok m => n - m
  | .error _ => n

/-- Whether the kernel takes so many bytes each in one call of `write`, from the call with number
`i` on; `Write` makes none for data that is empty. -/
def Kernel.takesAll (k : Kernel) (i : Nat) : List Nat → Bool
  | [] => true
  | n :: ns => if n = 0 then k.takesAll i ns else k.leaves i n == 0 && k.takesAll (i + 1) ns

theorem Kernel.leaves_zero (k : Kernel) (i : Nat) : k.leaves i 0 = 0 := by
  unfold leaves
  cases k.write i with
  | ok m => exact Nat.zero_sub m
  | error e => rfl

structure Backlog where
  calls : Nat
  armed : Bool
  pieces : List Piece
deriving DecidableEq, Repr

namespace Backlog

variable (g : Engine) (k : Kernel)

def left (q : Backlog) : Nat := (q.pieces.map Piece.there).sum

def call (q : Backlog) : Backlog := { q with calls := q.calls + 1 }

/-- A registration in epoll, which is no call with edge triggering and no ONESHOT. -/
def register (q : Backlog) : Backlog := if g.edgeTriggered && !g.oneshot then q else q.call

def arm (q : Backlog) : Backlog := if q.armed then q else { q with armed := true }.register g

def disarm (q : Backlog) : Backlog := if q.armed then { q with armed := false }.register g else q

/-- `n` bytes are queued: behind those of the last buffer, if it does not grow too long. -/
def put (q : Backlog) (n : Nat) : Backlog :=
  let fresh : Piece := { file := false, size := some n, todo := n, there := n }
  { q with pieces :=
      match q.pieces.getLast? with
      | none => q.pieces ++ [fresh]
      | some p =>
        match p.size with
        | none => q.pieces ++ [fresh]
        | some size =>
          if maxWriteCacheOrFlushSize < size + n then q.pieces ++ [fresh]
          else q.pieces.dropLast ++
            [{ p with size := some (size + n), todo := p.todo + n, there := p.there + n }] }

/-- `Write` of `n` bytes: the kernel is asked if nothing waits, and what it does not take is
queued. -/
def write (q : Backlog) (n : Nat) : Backlog :=
  let q :=
    if n = 0 then q
    else if q.pieces = [] then
      if k.leaves q.calls n = 0 then q.call else q.call.put (k.leaves q.calls n)
    else q.put n
  if q.pieces = [] then q else q.arm g

/-- The loop of `flush`: the kernel is asked for one entry after the other until it answers
`EAGAIN`. -/
def flushLoop : Nat → Backlog → Backlog
  | 0, q => q
  | fuel + 1, q =>
    match q.pieces with
    | [] => q.disarm g
    | head :: rest =>
      if head.file ∧ head.todo = 0 then flushLoop fuel q
      else
        match if head.file then k.sendfile q.calls else k.write q.calls with
        | .ok m => flushLoop fuel { q.call with pieces := head.after (min m head.there) ++ rest }
        | .error .eintr => flushLoop fuel q.call
        | .error _ => if g.isOneshot then q.call.register g else q.call

def flush (fuel : Nat) (q : Backlog) : Backlog :=
  if q.pieces = [] then q else q.flushLoop g k fuel

/-- A call of `Write` with so many bytes, or a writing event of the poller. -/
inductive Event where
  | write (n : Nat)
  | flush (fuel : Nat)
deriving DecidableEq, Repr

def next (q : Backlog) : Event → Backlog
  | .write n => q.write g k n
  | .flush fuel => q.flush g k fuel

def run (q : Backlog) (events : List Event) : Backlog := events.foldl (next g k) q

/-! ### Writes without an event in between -/

variable {g k} {q : Backlog}

theorem pieces_arm : (q.arm g).pieces = q.pieces := by
  unfold arm register
  split
  · rfl
  · split <;> rfl

theorem left_put (n : Nat) : (q.put n).left = q.left + n := by
  unfold put left
  dsimp only
  cases hlast : q.pieces.getLast? with
  | none => simp
  | some p =>
    obtain ⟨init, hpieces⟩ := getLast?_eq_some_iff.1 hlast
    cases hsize : p.size with
    | none => simp [hsize]
    | some size =>
      simp only [hsize]
      split
      · simp
      · simp [hpieces, Nat.add_assoc]

theorem left_write (n : Nat) : (q.write g k n).left =
    if q.pieces = [] then k.leaves q.calls n else q.left + n := by
  have harm : ∀ q' : Backlog, (if q'.pieces = [] then q' else q'.arm g).left = q'.left := by
    intro q'
    split
    · rfl
    · rw [left, pieces_arm, left]
  unfold write
  rw [harm]
  by_cases hnil : q.pieces = []
  · have hleft : q.left = 0 := by rw [left, hnil, map_nil, sum_nil]
    have hcall : q.call.left = 0 := hleft
    rw [if_pos hnil, if_pos hnil]
    split
    · next hn => rw [hleft, hn, Kernel.leaves_zero]
    split
    · next hzero => rw [hcall, hzero]
    · rw [left_put, hcall, Nat.zero_add]
  · rw [if_neg hnil, if_neg hnil]
    split
    · next hn => rw [hn, Nat.add_zero]
    · rw [left_put]

theorem left_run_writes_pos (h : 0 < q.left) (ns : List Nat) :
    0 < (q.run g k (ns.map .write)).left := by
  induction ns generalizing q with
  | nil => exact h
  | cons n ns ih =>
    have hne : q.pieces ≠ [] := by
      intro hnil
      rw [left, hnil] at h
      cases h
    refine ih (q := q.write g k n) ?_
    rw [left_write, if_neg hne]
    exact Nat.add_pos_left h n

theorem left_run_writes_idle (h : q.pieces = []) (ns : List Nat) :
    (q.run g k (ns.map .write)).left = 0 ↔ k.takesAll q.calls ns = true := by
  have hleft : q.left = 0 := by rw [left, h, map_nil, sum_nil]
  induction ns generalizing q with
  | nil => simp only [map_nil, run, foldl_nil, hleft, Kernel.takesAll]
  | cons n ns ih =>
    change ((q.write g k n).run g k (ns.map .write)).left = 0 ↔ _
    have hwrite := left_write (g := g) (k := k) (q := q) n
    rw [if_pos h] at hwrite
    rw [Kernel.takesAll]
    by_cases hn : n = 0
    · have hsame : q.write g k n = q := by simp only [write, hn, if_true, h]
      rw [hsame, if_pos hn]
      exact ih h hleft
    rw [if_neg hn]
    by_cases hzero : k.leaves q.calls n = 0
    · have hpieces : q.call.pieces = [] := h
      have hcall : q.write g k n = q.call := by
        simp only [write, if_neg hn, if_pos h, if_pos hzero, if_pos hpieces]
      rw [hcall, hzero]
      exact ih (q := q.call) h hleft
    · have hpos := left_run_writes_pos (g := g) (k := k) (hwrite ▸ Nat.pos_of_ne_zero hzero) ns
      simp only [beq_eq_false_iff_ne.2 hzero, Bool.false_and, Bool.false_eq_true, iff_false]
      exact hpos.ne'

end Backlog

/-! ## The connection follows its backlog -/

namespace ToWrite

def piece (t : ToWrite) : Piece where
  file := t.fd != 0
  size := t.buf.map fun b => b.data.length
  todo := t.todo
  there := t.pending.length

variable {t : ToWrite}

theorem piece_fresh (id : Nat) {b : Buffer} {buf : Bytes} (h : b.data = buf) :
    piece ⟨id, 0, some b, 0, 0, []⟩ =
      { file := false, size := some buf.length, todo := buf.length, there := buf.length } := by
  subst h
  simp [piece, pending, todo]

theorem piece_merged {t : ToWrite} {b b' : Buffer} {buf : Bytes} (ht : t.WF) (hb : t.buf = some b)
    (h : b'.data = b.data ++ buf) : piece { t with buf := some b' } =
      { t.piece with
        size := some (b.data.length + buf.length)
        todo := t.piece.todo + buf.length, there := t.piece.there + buf.length } := by
  obtain ⟨hfd, hoffset⟩ := ht b hb
  have hlength : b.data.length + buf.length - t.offset =
      b.data.length - t.offset + buf.length := by omega
  simp [piece, pending, todo, hb, h, hfd, hlength]

theorem file_piece : t.piece.file = true ↔ t.fd ≠ 0 := bne_iff_ne

theorem answer_piece (k : Kernel) (i : Nat) (t : ToWrite) :
    (if t.piece.file then k.sendfile i else k.write i) = k.answer i t := by
  unfold Kernel.answer
  by_cases hfd : t.fd = 0
  · rw [if_pos hfd, if_neg (file_piece.not.2 (not_not.2 hfd))]
  · rw [if_neg hfd, if_pos (file_piece.2 hfd)]

theorem WF.available_eq (ht : t.WF) (hbuf : t.fd = 0 → t.buf ≠ none) :
    t.available = t.pending.length := by
  unfold available todo pending
  cases hb : t.buf with
  | some b => simp [(ht b hb).1]
  | none =>
    have hfd : t.fd ≠ 0 := fun h => hbuf h hb
    simp [hfd]

theorem piece_behind (hbuf : t.fd = 0 → t.buf ≠ none) (n : Nat) :
    (t.behind n).piece = { t.piece with todo := t.todo - n, there := t.pending.length - n } := by
  have hbehind : (t.behind n).pending.length = t.pending.length - n := by
    unfold behind pending
    cases hb : t.buf with
    | some b => simp [Nat.sub_sub]
    | none =>
      have hfd : t.fd ≠ 0 := fun h => hbuf h hb
      simp only [hfd, if_false, length_take, length_drop]
      omega
  unfold piece
  rw [todo_behind, hbehind]
  rfl

theorem piece_after (hbuf : t.fd = 0 → t.buf ≠ none) (n : Nat) :
    (t.after n).map piece = t.piece.after n := by
  unfold after Piece.after
  split
  · rfl
  change map piece (if t.todo ≤ n then _ else _) = if t.todo ≤ n then _ else _
  split
  · rfl
  · rw [map_singleton, piece_behind hbuf]
    rfl

end ToWrite

namespace Conn

variable {g : Engine} {k : Kernel} {c c' : Conn}

def backlog (c : Conn) : Backlog :=
  { calls := c.calls, armed := c.isWAdded, pieces := c.writeList.map ToWrite.piece }

theorem left_backlog (c : Conn) : c.backlog.left = c.pending.length := by
  rw [Backlog.left, backlog, pending, length_flatMap, map_map]
  rfl

theorem pieces_backlog : c.backlog.pieces = [] ↔ c.writeList = [] := map_eq_nil_iff

theorem appendBuffer_backlog (buf : Bytes) : (c.appendBuffer g buf).backlog =
    { c.backlog with pieces := c.backlog.pieces ++
      [{ file := false, size := some buf.length, todo := buf.length, there := buf.length }] } := by
  simp [appendBuffer, backlog, ToWrite.piece_fresh _ (copy_malloc g.bodyAllocator buf)]

theorem newToWriteBuf_backlog (hc : c.WF) (buf : Bytes) :
    (c.newToWriteBuf g buf).backlog = c.backlog.put buf.length := by
  have hlast' : c.backlog.pieces.getLast? = c.writeList.getLast?.map ToWrite.piece := getLast?_map
  unfold newToWriteBuf Backlog.put
  dsimp only
  rw [hlast']
  cases hlast : c.writeList.getLast? with
  | none => exact appendBuffer_backlog buf
  | some tail =>
    obtain ⟨init, hlist⟩ := getLast?_eq_some_iff.1 hlast
    have htail : tail.WF := hc.entries tail (by simp [hlist])
    have hsize : tail.piece.size = tail.buf.map fun b => b.data.length := rfl
    simp only [Option.map_some, hsize]
    cases hbuf : tail.buf with
    | none => exact appendBuffer_backlog buf
    | some b =>
      simp only [Option.map_some]
      split
      · exact appendBuffer_backlog buf
      · have hdata : ∀ b' : Buffer, b'.data = b.data →
            (g.bodyAllocator.append b' buf).data = b.data ++ buf := by
          intro b' hb'
          rw [append_data, hb']
        have hpieces : ∀ b' : Buffer, b'.data = b.data → ToWrite.piece
            { tail with buf := some (g.bodyAllocator.append b' buf) } = _ := fun b' hb' =>
          ToWrite.piece_merged htail hbuf (hdata b' hb')
        simp only [backlog, hlist, dropLast_concat, map_append, map_cons, map_nil]
        rw [hpieces]
        split
        · exact copy_reslice_malloc _ _ _
        · rfl

/-! ### `Write` -/

theorem pollerModWrite_backlog : (c.pollerModWrite g k).2.backlog = c.backlog.register g := by
  unfold pollerModWrite Backlog.register epollMod
  split
  · rfl
  · split <;> rfl

theorem modWrite_backlog (hopen : c.closed = false) :
    (c.modWrite g k).backlog = c.backlog.arm g := by
  have harmed : c.backlog.armed = c.isWAdded := rfl
  unfold modWrite Backlog.arm
  rw [hopen, harmed]
  cases hw : c.isWAdded with
  | true => rfl
  | false => exact pollerModWrite_backlog

theorem resetRead_backlog (hopen : c.closed = false) :
    (c.resetRead g k).backlog = c.backlog.disarm g := by
  have harmed : c.backlog.armed = c.isWAdded := rfl
  unfold resetRead Backlog.disarm
  rw [hopen, harmed]
  cases hw : c.isWAdded with
  | true =>
    unfold pollerResetRead Backlog.register epollMod
    simp only [Bool.not_false, Bool.and_self, if_true]
    split
    · rfl
    · split <;> rfl
  | false => rfl

theorem settle_backlog (hopen : c.closed = false) : (c.settle g k).backlog =
    if c.backlog.pieces = [] then c.backlog else c.backlog.arm g := by
  unfold settle
  by_cases hnil : c.writeList = []
  · rw [if_pos hnil, if_pos (pieces_backlog.2 hnil)]
    rfl
  · rw [if_neg hnil, if_neg (pieces_backlog.not.2 hnil), modWrite_backlog hopen]

theorem queueRest_backlog (hc : c.WF) (n : Int) (b : Bytes) : (c.queueRest g n b).2.backlog =
    if n.toNat < b.length then c.backlog.put (b.length - n.toNat) else c.backlog := by
  unfold queueRest
  by_cases hlt : n.toNat < b.length
  · simp only [if_pos (And.intro hlt hc.isStream), if_pos hlt]
    rw [newToWriteBuf_backlog hc, length_drop]
  · simp only [hlt, false_and, if_false]

theorem doWrite_backlog (hc : c.WF) (b : Bytes) :
    (c.doWrite g k b).2.backlog = c.backlog.call ∧ (c.doWrite g k b).1 = (c.sysWrite k b).1 := by
  have hreport : ∀ (n : Nat) (c' : Conn), (c'.reportWritten g n).backlog = c'.backlog := by
    intro n c'
    unfold reportWritten
    split <;> rfl
  have hsys : (c.sysWrite k b).2.backlog = c.backlog.call := by
    unfold sysWrite
    cases k.write c.calls <;> rfl
  rw [doWrite_stream hc.isStream]
  refine ⟨?_, rfl⟩
  split
  · rw [hreport, hsys]
  · exact hsys

theorem Write_open (hc : c.WF) {b : Bytes} (hopen : (c.Write g k b).2.closed = false) :
    (c.write g k b).1.2 = none ∧ (c.Write g k b).2 = (c.write g k b).2.settle g k := by
  obtain ⟨-, -, hspec⟩ := write_spec hc b
  unfold Write at hopen ⊢
  split at hopen
  · next hclosed =>
    rw [hclosed] at hopen
    cases hopen
  next hclosed =>
  rw [if_neg hclosed]
  rcases hspec with ⟨hnone, -⟩ | ⟨e, herr, hretry⟩
  · refine ⟨hnone, ?_⟩
    simp only [afterWrite, hnone]
  · simp only [afterWrite, herr, hretry, Bool.false_eq_true, if_false, fail_closed] at hopen
    cases hopen

theorem write_eq_queueRest (h : c.writeList = []) {b : Bytes} (hb : b ≠ [])
    (hnone : (c.write g k b).1.2 = none) :
    c.write g k b = (c.doWrite g k b).2.queueRest g (c.doWrite g k b).1.1 b := by
  rw [write, if_neg hb] at hnone ⊢
  split at hnone
  · cases hnone
  next hover =>
  rw [if_neg hover, if_pos h]
  generalize c.doWrite g k b = r at hnone ⊢
  obtain ⟨⟨n, err⟩, c₁⟩ := r
  cases err with
  | none => rfl
  | some e =>
    dsimp only at hnone ⊢
    split at hnone
    · next hretry => rw [if_pos hretry]
    · cases hnone

theorem sysWrite_leaves (b : Bytes) :
    b.length - (c.sysWrite k b).1.1.toNat = k.leaves c.calls b.length := by
  unfold sysWrite Kernel.leaves
  cases k.write c.calls with
  | error e => exact Nat.sub_zero _
  | ok m =>
    simp only [Int.toNat_natCast]
    omega

theorem write_backlog (hc : c.WF) {b : Bytes} (hnone : (c.write g k b).1.2 = none) :
    (c.write g k b).2.backlog =
      if b.length = 0 then c.backlog
      else if c.backlog.pieces = [] then
        if k.leaves c.calls b.length = 0 then c.backlog.call
        else c.backlog.call.put (k.leaves c.calls b.length)
      else c.backlog.put b.length := by
  by_cases hb : b = []
  · subst hb
    rfl
  have hlength : b.length ≠ 0 := fun h => hb (length_eq_zero_iff.1 h)
  rw [if_neg hlength]
  by_cases hnil : c.writeList = []
  · obtain ⟨hcall, hres⟩ := doWrite_backlog (g := g) (k := k) hc b
    have hleaves := sysWrite_leaves (k := k) (c := c) b
    rw [if_pos (pieces_backlog.2 hnil), write_eq_queueRest hnil hb hnone,
      queueRest_backlog ((doWrite_sends hc b).wf hc), hcall, hres, hleaves]
    split
    · next hlt => rw [if_neg (by omega)]
    · next hle => rw [if_pos (by omega)]
  · rw [if_neg (pieces_backlog.not.2 hnil), ← newToWriteBuf_backlog (g := g) hc]
    unfold write at hnone ⊢
    rw [if_neg hb] at hnone ⊢
    split at hnone
    · cases hnone
    · next hover => rw [if_neg hover, if_neg hnil]

theorem Write_backlog (hc : c.WF) {b : Bytes} (hopen : (c.Write g k b).2.closed = false) :
    (c.Write g k b).2.backlog = c.backlog.write g k b.length := by
  obtain ⟨hnone, heq⟩ := Write_open hc hopen
  have hclosed : (c.write g k b).2.closed = false := by
    rw [heq] at hopen
    rwa [settle_registers.same.closed] at hopen
  rw [heq, settle_backlog hclosed, write_backlog hc hnone]
  rfl

/-! ### `flush` -/

variable {head : ToWrite} {rest : List ToWrite}

theorem Takes.backlog {n : Nat} (h : c.Takes head rest (min n head.available) c')
    (hc : c.WF) (hlist : c.writeList = head :: rest) (hbuf : head.fd = 0 → head.buf ≠ none) :
    c'.backlog = { c.backlog.call with
      pieces := head.piece.after (min n head.piece.there) ++ rest.map ToWrite.piece } := by
  have hhead : head.WF := hc.entries head (by rw [hlist]; exact mem_cons_self)
  rw [hhead.available_eq hbuf] at h
  unfold Conn.backlog
  rw [h.writeList, h.calls, h.isWAdded, map_append, ToWrite.piece_after hbuf]
  rfl

theorem flushLoop_backlog (fuel : Nat) (hc : c.WF)
    (hret : ∃ n err, (c.flushLoop g k fuel).1 = .returns n err) (hopen₀ : c.closed = false)
    (hopen : (c.flushLoop g k fuel).2.closed = false) :
    (c.flushLoop g k fuel).2.backlog = c.backlog.flushLoop g k fuel := by
  induction fuel generalizing c with
  | zero =>
    obtain ⟨n, err, h⟩ := hret
    cases h
  | succ fuel ih =>
    cases hlist : c.writeList with
    | nil =>
      simp only [flushLoop, Backlog.flushLoop, pieces_backlog.2 hlist, hlist]
      exact resetRead_backlog hopen₀
    | cons head rest =>
      have hpieces : c.backlog.pieces = head.piece :: rest.map ToWrite.piece := by
        rw [backlog, hlist, map_cons]
      have hbuf : head.fd = 0 → head.buf ≠ none := by
        intro hfd hnone
        obtain ⟨n, err, h⟩ := hret
        simp only [flushLoop, hlist, flushHead, if_pos hfd, hnone, Option.map_none] at h
        cases h
      have hcalls : c.backlog.calls = c.calls := rfl
      simp only [Backlog.flushLoop, hpieces, ToWrite.answer_piece, hcalls]
      simp only [ToWrite.file_piece]
      by_cases hidle : head.fd ≠ 0 ∧ head.piece.todo = 0
      · have hnext := flushNext_of_ok hlist (flushHead_idle (g := g) (k := k) rest hidle.1 hidle.2)
        rw [flushLoop_next hnext] at hret hopen ⊢
        rw [if_pos hidle]
        exact ih hc hret hopen₀ hopen
      rw [if_neg hidle]
      have hremain : head.fd ≠ 0 → 0 < head.todo := fun hfd =>
        Nat.pos_of_ne_zero fun h => hidle ⟨hfd, h⟩
      cases ha : k.answer c.calls head with
      | ok n =>
        obtain ⟨c₁, hr, htakes⟩ := flushHead_ok (g := g) hlist hbuf hremain ha
        obtain ⟨hwf, hclosed, -⟩ := flushHead_flushes hc hlist hr
        rw [flushLoop_next (flushNext_of_ok hlist hr)] at hret hopen ⊢
        rw [ih hwf hret (hclosed.trans hopen₀) hopen, htakes.backlog hc hlist hbuf]
      | error e =>
        have hr := flushHead_error (g := g) rest hbuf hremain ha
        cases e with
        | eintr =>
          rw [flushLoop_next (flushNext_of_eintr hlist hr)] at hret hopen ⊢
          exact ih (c := { c with calls := c.calls + 1 }) ⟨hc.isStream, hc.entries⟩ hret
            hopen₀ hopen
        | eagain =>
          simp only [flushLoop, hlist, hr]
          rw [← hlist]
          split
          · exact pollerModWrite_backlog
          · rfl
        | _ =>
          simp only [flushLoop, hlist, hr, fail_closed] at hopen
          cases hopen

theorem flush_backlog (fuel : Nat) (hc : c.WF)
    (hret : ∃ n err, (c.flush g k fuel).1 = .returns n err)
    (hopen : (c.flush g k fuel).2.closed = false) :
    (c.flush g k fuel).2.backlog = c.backlog.flush g k fuel := by
  unfold flush Backlog.flush at *
  split at hopen
  · next hclosed =>
    rw [hclosed] at hopen
    cases hopen
  next hclosed =>
  rw [if_neg hclosed] at hret ⊢
  by_cases hnil : c.writeList = []
  · rw [if_pos hnil, if_pos (pieces_backlog.2 hnil)]
  · rw [if_neg hnil] at hopen hret ⊢
    rw [if_neg (pieces_backlog.not.2 hnil)]
    exact flushLoop_backlog fuel hc hret (Bool.eq_false_of_not_eq_true hclosed) hopen

end Conn

/-! ## Runs -/

/-- Calls that pass this data to `Write`, in order, with writing events of the poller in
between. -/
inductive Conveys : List Call → List Bytes → Prop where
  | nil : Conveys [] []
  | write {calls : List Call} {ds : List Bytes} (d : Bytes) (h : Conveys calls ds) :
    Conveys (.write d :: calls) (d :: ds)
  | flush {calls : List Call} {ds : List Bytes} (fuel : Nat) (h : Conveys calls ds) :
    Conveys (.flush fuel :: calls) ds

def Call.event : Call → Option Backlog.Event
  | .write b => some (.write b.length)
  | .flush fuel => some (.flush fuel)
  | .sendfile _ _ _ => none

def events (calls : List Call) : List Backlog.Event := calls.filterMap Call.event

variable {g : Engine} {k : Kernel} {c : Conn} {calls : List Call} {ds : List Bytes}

/-- A run that comes to its end and leaves the connection open: the data is behind what there was
before, and how much of it waits follows from the answers of the kernel and the lengths. -/
theorem Conveys.run_backlog (hcalls : Conveys calls ds) (hc : c.WF) (reported : Bytes)
    (hdone : (run g k c reported calls).current = none)
    (hopen : (run g k c reported calls).conn.closed = false) :
    (run g k c reported calls).conn.stream = c.stream ++ ds.flatten ∧
      (run g k c reported calls).conn.backlog = c.backlog.run g k (events calls) := by
  induction hcalls generalizing c reported with
  | nil => exact ⟨(append_nil _).symm, rfl⟩
  | @write calls ds d _ ih =>
    obtain ⟨hwf, hspec⟩ := Conn.Write_spec hc d
    have hopen₁ := exec_open_of_run hopen
    obtain ⟨hnone, hstream⟩ := hspec hopen₁
    simp only [run, Call.exec, hnone] at hdone hopen ⊢
    obtain ⟨hrest, hbacklog⟩ := ih hwf _ hdone hopen
    rw [hrest, hstream, flatten_cons, append_assoc, hbacklog, Conn.Write_backlog hc hopen₁]
    exact ⟨rfl, rfl⟩
  | @flush calls ds fuel _ ih =>
    obtain ⟨hwf, hspec⟩ := Conn.flush_spec fuel hc
    have hopen₁ := exec_open_of_run hopen
    have hstream := hspec hopen₁
    have hbacklog := Conn.flush_backlog (g := g) (k := k) fuel hc
    rw [← hstream]
    simp only [run, Call.exec] at hdone hopen hopen₁ ⊢
    generalize c.flush g k fuel = r at hwf hdone hopen hopen₁ hbacklog ⊢
    obtain ⟨o, c₁⟩ := r
    cases o with
    | running => cases hdone
    | panics => cases hdone
    | returns n err =>
      have hevents : c.backlog.run g k (events (.flush fuel :: calls)) =
          c₁.backlog.run g k (events calls) := by
        rw [hbacklog ⟨n, err, rfl⟩ hopen₁]
        rfl
      rw [hevents]
      cases err with
      | none => exact ih hwf _ hdone hopen
      | some e => exact ih hwf _ hdone hopen

end Nbio.Net
