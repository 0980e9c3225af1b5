import Nbio.Net.Parts
import Nbio.Net.Writev

/-!
# What `left` counts and what `onWrittenSize` is told

`left` is the number of bytes in the buffers that wait, and `onWrittenSize` is to be told of every
byte the kernel accepts.  The parts of a call are accounted for one by one (`Accounts`).  No part
lets `left` drift from what it counts, and none reports more than was accepted; but a `writev(2)`
that takes everything and the loop of `Sendfile` report nothing.
-/

namespace Nbio.Net

open Nbio.Go List

variable {q : Nat} {u : Int}

namespace Conn

/-- The sum of `len(buf) - offset` over the buffers that wait. -/
def buffered (c : Conn) : Int := (c.writeList.map ToWrite.bufferLeft).sum

/-- How far `left` is from what it counts. -/
def drift (c : Conn) : Int := c.left - c.buffered

/-- The number of bytes the kernel has accepted, less the sizes reported. -/
def unreported (c : Conn) : Int := (c.accepted.length : Int) - (c.sizes.sum : Nat)

/-- How `c'` follows `c` by a part of a call that queues at most `queued` bytes in buffers, and
lets the bytes that were not reported grow by `sent`. -/
structure Accounts (g : Engine) (c c' : Conn) (queued : Nat) (sent : Int) : Prop where
  closed : c'.closed = c.closed
  left : c'.left ≤ c.left + queued
  sorted : c.Sorted → c'.Sorted
  drift : c.Sorted → c'.drift = c.drift
  unreported : g.onWrittenSize = true → c'.unreported = c.unreported + sent

variable {g : Engine} {k : Kernel} {c c' c'' : Conn}

theorem Accounts.trans {q' : Nat} {u' : Int} (h : Accounts g c c' q u)
    (h' : Accounts g c' c'' q' u') : Accounts g c c'' (q + q') (u + u') where
  closed := h'.closed.trans h.closed
  left := by
    have h₁ := h.left
    have h₂ := h'.left
    omega
  sorted := h'.sorted ∘ h.sorted
  drift hs := (h'.drift (h.sorted hs)).trans (h.drift hs)
  unreported hg := by rw [h'.unreported hg, h.unreported hg, Int.add_assoc]

theorem Accounts.mono {q' : Nat} (h : Accounts g c c' q u) (hle : q ≤ q') :
    Accounts g c c' q' u where
  closed := h.closed
  left := by
    have h₁ := h.left
    omega
  sorted := h.sorted
  drift := h.drift
  unreported := h.unreported

theorem accounts_same (hclosed : c'.closed = c.closed) (hleft : c'.left = c.left)
    (hlist : c'.writeList = c.writeList) (hacc : c'.accepted = c.accepted)
    (hsizes : c'.sizes = c.sizes) : Accounts g c c' 0 0 where
  closed := hclosed
  left := by rw [hleft]; simp
  sorted hs := by rw [Sorted, hlist]; exact hs
  drift _ := by rw [Conn.drift, Conn.drift, buffered, buffered, hleft, hlist]
  unreported _ := by rw [Conn.unreported, Conn.unreported, hacc, hsizes, Int.add_zero]

theorem Accounts.refl (g : Engine) (c : Conn) : Accounts g c c 0 0 :=
  accounts_same rfl rfl rfl rfl rfl

theorem Accounts.trans_same (h : Accounts g c c' q u) (h' : Accounts g c' c'' 0 0) :
    Accounts g c c'' q u := by
  have := h.trans h'
  rwa [Nat.add_zero, Int.add_zero] at this

/-! ## Parts of calls -/

theorem Registers.accounts (h : Registers c c') : Accounts g c c' 0 0 := by
  obtain ⟨_, _, _, _, rfl⟩ := h
  exact accounts_same rfl rfl rfl rfl rfl

theorem sent_accounts (data : Bytes) : Accounts g c
    { c with calls := c.calls + 1, accepted := c.accepted ++ data } 0 data.length where
  closed := rfl
  left := by simp
  sorted := id
  drift _ := rfl
  unreported _ := by
    simp only [Conn.unreported, length_append]
    omega

theorem reportWritten_accounts (n : Nat) : Accounts g c (c.reportWritten g n) 0 (-n) := by
  unfold reportWritten
  split
  · refine ⟨rfl, by simp, id, fun _ => rfl, fun _ => ?_⟩
    simp only [Conn.unreported, sum_append, sum_singleton]
    omega
  · next hg => exact ⟨rfl, by simp, id, fun _ => rfl, fun h => absurd h hg⟩

theorem accounts_queued {init : List ToWrite} (tail : List ToWrite) {t : ToWrite} (buf : Bytes)
    (hclosed : c'.closed = c.closed) (hleft : c'.left = c.left + buf.length)
    (hlist : c.writeList = init ++ tail) (hlist' : c'.writeList = init ++ [t])
    (hfd : c.Sorted → t.buf ≠ none → t.fd = 0)
    (ht : t.bufferLeft = (tail.map ToWrite.bufferLeft).sum + buf.length)
    (hacc : c'.accepted = c.accepted) (hsizes : c'.sizes = c.sizes) :
    Accounts g c c' buf.length 0 where
  closed := hclosed
  left := by rw [hleft]
  sorted hs := by
    rw [Sorted, hlist']
    intro t' ht'
    rcases mem_append.1 ht' with hmem | hmem
    · exact hs t' (by rw [hlist]; exact mem_append_left _ hmem)
    · rw [mem_singleton.1 hmem]
      exact hfd hs
  drift _ := by
    simp only [Conn.drift, buffered, hlist, hlist', map_append, sum_append,
      map_cons, map_nil, sum_singleton]
    omega
  unreported _ := by rw [Conn.unreported, Conn.unreported, hacc, hsizes, Int.add_zero]

theorem newToWriteBuf_accounts (buf : Bytes) :
    Accounts g c (c.newToWriteBuf g buf) buf.length 0 := by
  obtain ⟨b, hb, heq⟩ | ⟨init, tail, b, b', hlist, hbuf, hdata, heq⟩ := newToWriteBuf_cases g c buf
  · rw [heq]
    exact accounts_queued [] buf rfl rfl (append_nil _).symm rfl (fun _ _ => rfl)
      (by simp [ToWrite.bufferLeft, hb]) rfl rfl
  · rw [heq]
    refine accounts_queued [tail] buf rfl rfl hlist rfl
      (fun hs _ => hs tail (by simp [hlist]) (by simp [hbuf])) ?_ rfl rfl
    simp only [ToWrite.bufferLeft, hdata, hbuf, length_append, map_cons, map_nil, sum_singleton]
    omega

theorem newToWriteFile_accounts (fd offset : Nat) (remain : Int) (file : Bytes) :
    Accounts g c (c.newToWriteFile fd offset remain file) 0 0 :=
  accounts_queued [] [] rfl (Int.add_zero _).symm (append_nil _).symm rfl
    (fun _ h => absurd rfl h) rfl rfl rfl

variable {head : ToWrite} {rest : List ToWrite}

theorem accounts_head {l : List ToWrite} {n : Nat} (hlist : c.writeList = head :: rest)
    (hl : ∀ t ∈ l, t ∈ rest ∨ (t.buf = head.buf ∧ t.fd = head.fd))
    (hsum : c.Sorted → (l.map ToWrite.bufferLeft).sum + n =
      head.bufferLeft + (rest.map ToWrite.bufferLeft).sum) (released : List ToWrite) :
    Accounts g c { c with left := c.left - n, writeList := l, released := released } 0 0 where
  closed := rfl
  left := by
    dsimp only
    omega
  sorted hs := by
    rw [Sorted, hlist] at hs
    intro t ht
    rcases hl t ht with hmem | ⟨hbuf, hfd⟩
    · exact hs t (mem_cons_of_mem _ hmem)
    · rw [hbuf, hfd]
      exact hs head mem_cons_self
  drift hs := by
    have hsum := hsum hs
    simp only [Conn.drift, buffered, hlist, map_cons, sum_cons]
    omega
  unreported _ := (Int.add_zero _).symm

theorem Part.accounts {flushes : Bool} (h : Part g c flushes c' q u) :
    Accounts g c c' q u := by
  cases h with
  | called => exact accounts_same rfl rfl rfl rfl rfl
  | sent data => exact sent_accounts data
  | reported n => exact reportWritten_accounts n
  | queued b => exact newToWriteBuf_accounts b
  | queuedFile fd offset remain file => exact newToWriteFile_accounts fd offset remain file
  | @shrunk head rest head' n hlist _ hbuf hfd hleft =>
    refine accounts_head hlist (fun t ht => ?_) (fun hs => ?_) _
    · rcases mem_cons.1 ht with rfl | ht
      · exact .inr ⟨hbuf, hfd⟩
      · exact .inl ht
    · have := hleft hs
      rw [map_cons, sum_cons]
      omega
  | released head' n hlist _ hleft =>
    refine accounts_head hlist (fun _ => .inl) (fun hs => ?_) _
    have := hleft hs
    omega

theorem Parts.accounts {flushes : Bool} (h : Parts g flushes c c' q u) :
    Accounts g c c' q u := by
  induction h with
  | refl c => exact .refl g c
  | part h => exact h.accounts
  | trans _ _ ih ih' => exact ih.trans ih'
  | mono _ hle ih => exact ih.mono hle

/-- A call to its end: what it does is accounted for, and then it may fail and close the
connection. -/
def Concludes (g : Engine) (c c' : Conn) (queued : Nat) (sent : Int) : Prop :=
  ∃ c₁, Accounts g c c₁ queued sent ∧ (c' = c₁ ∨ ∃ e, c' = c₁.fail e)

theorem Made.concludes {flushes : Bool} (h : Made g k flushes c c' q u) :
    Concludes g c c' q u := by
  obtain ⟨c₁, hparts, hend⟩ := h
  rcases hend.registers with hreg | hfail
  · exact ⟨c', hparts.accounts.trans_same hreg.accounts, .inl rfl⟩
  · exact ⟨c₁, hparts.accounts, .inr hfail⟩

end Conn

/-! ## Runs -/

open Conn

/-- A call on a connection; `fuel` bounds the iterations for which its loop is followed. -/
inductive Op where
  | write (b : Bytes)
  | writev (bs : List Bytes)
  | sendfile (f : Option File) (remain : Int) (fuel : Nat)
  | flush (fuel : Nat)
deriving DecidableEq, Repr

namespace Op

variable (g : Engine) (k : Kernel)

def exec (c : Conn) : Op → Conn
  | .write b => (c.Write g k b).2
  | .writev bs => (c.Writev g k bs).2
  | .sendfile f remain fuel => (c.Sendfile g k fuel f remain).2
  | .flush fuel => (c.flush g k fuel).2

def run (c : Conn) (ops : List Op) : Conn := ops.foldl (exec g k) c

/-- Whether a call on a connection in this state reports what it sends: a `Writev` of several
slices does unless one `writev(2)` takes all of them, a `Sendfile` with nothing waiting before it
does only if it sends nothing. -/
def reports (c : Conn) : Op → Bool
  | .write _ => true
  | .writev bs => c.closed || bs.length == 1 || !c.takesWhole g k bs
  | .sendfile none _ _ => true
  | .sendfile (some f) remain fuel =>
    c.closed || f.err ≠ none || c.writeList ≠ [] || c.sendsNothing k f remain fuel
  | .flush _ => true

def reportAll (c : Conn) : List Op → Bool
  | [] => true
  | op :: ops => op.reports g k c && reportAll (op.exec g k c) ops

end Op

variable {g : Engine} {k : Kernel} {c c' : Conn}

theorem Writev_concludes (bs : List Bytes) :
    ∃ q, ∃ n : Nat, Fits g c q ∧ Concludes g c (c.Writev g k bs).2 q n ∧
      (n = 0 ↔ (Op.writev bs).reports g k c = true) := by
  by_cases hclosed : c.closed = true
  · refine ⟨0, 0, .inl rfl, ?_, by simp [Op.reports, hclosed]⟩
    unfold Writev
    rw [if_pos hclosed]
    exact (Made.refl c : Made g k false c c 0 0).concludes
  rw [Bool.not_eq_true] at hclosed
  by_cases hone : bs.length = 1
  · obtain ⟨b, rfl⟩ := length_eq_one_iff.1 hone
    obtain ⟨q, hq, h⟩ := Write_made b
    refine ⟨q, 0, hq, ?_, by simp [Op.reports]⟩
    have heq : (c.Writev g k [b]).2 = (c.Write g k b).2 := by
      rw [Write_eq hclosed, Writev, if_neg (by rw [hclosed]; exact Bool.false_ne_true)]
    rw [heq]
    exact h.concludes
  obtain ⟨q, hq, h⟩ := writev_parts bs
  rw [Writev_eq hclosed hone]
  by_cases hwhole : c.takesWhole g k bs = true
  · rw [if_pos hwhole] at h
    refine ⟨q, _, hq, (afterWrite_made h _).concludes, ?_⟩
    have hpos := length_pos_iff.2 ((takesWhole_iff bs).1 hwhole).1
    exact iff_of_false (by omega) (by simp [Op.reports, hclosed, hwhole, hone])
  · rw [if_neg hwhole] at h
    exact ⟨q, 0, hq, (afterWrite_made h _).concludes, by simp [Op.reports, hwhole]⟩

theorem Op.exec_concludes (op : Op) :
    ∃ q, ∃ n : Nat, Fits g c q ∧ Concludes g c (op.exec g k c) q n ∧
      (n = 0 ↔ op.reports g k c = true) := by
  cases op with
  | write b =>
    obtain ⟨q, hq, h⟩ := Write_made b
    exact ⟨q, 0, hq, h.concludes, by simp [reports]⟩
  | writev bs => exact Writev_concludes bs
  | sendfile f remain fuel =>
    cases f with
    | none =>
      exact ⟨0, 0, .inl rfl, (Made.refl c : Made g k false c c 0 0).concludes,
        by simp [reports]⟩
    | some f =>
      obtain ⟨n, hn, hiff⟩ := Sendfile_made f remain fuel
      refine ⟨0, n, .inl rfl, hn.concludes, ?_⟩
      simp [reports, hiff, or_assoc]
  | flush fuel => exact ⟨0, 0, .inl rfl, (flush_made fuel).concludes, by simp [reports]⟩

/-! ### `left` -/

/-- `left` is what it is to count, and within the limit. -/
structure Conn.LeftExact (g : Engine) (c : Conn) : Prop where
  sorted : c.Sorted
  left : c.left = c.buffered
  le : 0 < g.maxWriteBufferSize → c.left ≤ g.maxWriteBufferSize

theorem Conn.Concludes.leftExact (h : Concludes g c c' q u) (hq : Fits g c q)
    (hc : c.closed = false → c.LeftExact g) (hopen : c'.closed = false) : c'.LeftExact g := by
  obtain ⟨c₁, h₁, rfl | ⟨e, rfl⟩⟩ := h
  · obtain ⟨hs, hl, hle⟩ := hc (h₁.closed.symm.trans hopen)
    have hdrift := h₁.drift hs
    refine ⟨h₁.sorted hs, ?_, fun hmax => ?_⟩
    · rw [Conn.drift, Conn.drift] at hdrift
      omega
    · have hleft := h₁.left
      rcases hq with rfl | hno
      · omega
      · simp only [overflow, Bool.and_eq_false_iff, decide_eq_false_iff_not] at hno
        omega
  · rw [fail_closed] at hopen
    cases hopen

theorem Op.run_leftExact (ops : List Op) (hc : c.closed = false → c.LeftExact g)
    (hopen : (run g k c ops).closed = false) : (run g k c ops).LeftExact g := by
  induction ops generalizing c with
  | nil => exact hc hopen
  | cons op ops ih =>
    obtain ⟨q, n, hq, h, -⟩ := op.exec_concludes
    exact ih (h.leftExact hq hc) hopen

theorem Conn.fail_spec (c : Conn) (e : Err) :
    (c.fail e).accepted = c.accepted ∧ (c.fail e).sizes = c.sizes ∧ (c.fail e).writeList = [] ∧
      (c.fail e).released = c.released ++ c.writeList := by
  simp only [fail, closeWithErrorWithoutLock]
  split <;> exact ⟨rfl, rfl, rfl, rfl⟩

/-- In every run of `Write`, `Writev`, `Sendfile` and `flush`, whatever the kernel answers: while
the connection is open `left` is the number of bytes in the buffers that wait, and is at most
`MaxWriteBufferSize` if that is set.  A `Write` that would exceed it is refused: nothing of it is
sent, and nothing of it was among the entries released when the connection is closed for it. -/
theorem left_eq_buffered (g : Engine) (k : Kernel) {c : Conn}
    (hnew : c.writeList = [] ∧ c.left = 0) (ops : List Op)
    (hopen : (Op.run g k c ops).closed = false) :
    let c' := Op.run g k c ops
    c'.left = c'.buffered ∧
      (0 < g.maxWriteBufferSize → c'.left ≤ g.maxWriteBufferSize) ∧
      ∀ b : Bytes, 0 < g.maxWriteBufferSize → g.maxWriteBufferSize < c'.left + b.length →
        let w := c'.Write g k b
        w.1 = (-1, some errOverflow) ∧ w.2.accepted = c'.accepted ∧ w.2.writeList = [] ∧
          w.2.released = c'.released ++ c'.writeList := by
  have hstart : c.closed = false → c.LeftExact g := by
    intro _
    refine ⟨by simp [Sorted, hnew.1], by simp [buffered, hnew.1, hnew.2], fun hmax => ?_⟩
    rw [hnew.2]
    exact le_of_lt hmax
  obtain ⟨-, hleft, hle⟩ := Op.run_leftExact ops hstart hopen
  refine ⟨hleft, hle, fun b hmax hover => ?_⟩
  generalize Op.run g k c ops = c' at hopen hle hover
  have hne : b ≠ [] := by
    rintro rfl
    rw [length_nil] at hover
    omega
  have hw : c'.write g k b = ((-1, some errOverflow), c') := by
    rw [write, if_neg hne, if_pos (by simp [overflow, hmax, hover])]
  have hfail : c'.Write g k b = ((-1, some errOverflow), c'.fail errOverflow) := by
    rw [Write_eq hopen, hw]
    rfl
  obtain ⟨hacc, -, hlist, hrel⟩ := c'.fail_spec errOverflow
  rw [hfail]
  exact ⟨rfl, hacc, hlist, hrel⟩

def limitedEngine : Engine := { plainEngine with maxWriteBufferSize := 6 }

theorem left_eq_buffered_short_write :
    let c := Op.run limitedEngine shortKernel (newConn 7 .tcp)
      [.write (ascii "hello"), .writev [ascii "a", ascii "b"], .flush 3]
    c.closed = false ∧ c.accepted = ascii "hel" ∧ c.left = 4 ∧ c.left = c.buffered ∧
      (c.Write limitedEngine shortKernel (ascii "abc")).1 = (-1, some errOverflow) := by
  have h := left_eq_buffered limitedEngine shortKernel (c := newConn 7 .tcp) ⟨rfl, rfl⟩
    [.write (ascii "hello"), .writev [ascii "a", ascii "b"], .flush 3] (by decide)
  exact ⟨by decide, by decide, by decide, h.1,
    (h.2.2 (ascii "abc") (by decide) (by decide)).1⟩

/-! ### The sizes reported -/

theorem Conn.Concludes.unreported (hg : g.onWrittenSize = true) (h : Concludes g c c' q u) :
    c'.unreported = c.unreported + u := by
  obtain ⟨c₁, h₁, rfl | ⟨e, rfl⟩⟩ := h
  · exact h₁.unreported hg
  · obtain ⟨hacc, hsizes, -, -⟩ := c₁.fail_spec e
    rw [← h₁.unreported hg, Conn.unreported, Conn.unreported, hacc, hsizes]

/-- The bytes that were not reported do not get fewer, and stay as many exactly if every call
reports what it sends. -/
theorem Op.run_unreported (hg : g.onWrittenSize = true) (ops : List Op) :
    c.unreported ≤ (run g k c ops).unreported ∧
      ((run g k c ops).unreported = c.unreported ↔ reportAll g k c ops = true) := by
  induction ops generalizing c with
  | nil => exact ⟨le_rfl, by simp [run, reportAll]⟩
  | cons op ops ih =>
    obtain ⟨q, n, -, h, hiff⟩ := op.exec_concludes (c := c)
    have hstep := h.unreported hg
    obtain ⟨hle, hrest⟩ := ih
    have hrun : run g k c (op :: ops) = run g k (op.exec g k c) ops := rfl
    rw [hrun, reportAll, Bool.and_eq_true, ← hrest, ← hiff]
    omega

/-- With `onWrittenSize` set, the sizes reported in a run of `Write`, `Writev`, `Sendfile` and
`flush` add up to the number of bytes the kernel has accepted exactly if every call of it
reports. -/
theorem sizes_eq_accepted_iff {g : Engine} (hg : g.onWrittenSize = true) (k : Kernel) {c : Conn}
    (hnew : c.accepted = [] ∧ c.sizes = []) (ops : List Op) :
    (Op.run g k c ops).sizes.sum = (Op.run g k c ops).accepted.length ↔
      Op.reportAll g k c ops = true := by
  obtain ⟨-, hiff⟩ := Op.run_unreported hg ops
  rw [← hiff]
  simp only [Conn.unreported, hnew.1, hnew.2, length_nil, sum_nil]
  omega

theorem sizes_eq_accepted_iff_short_write :
    let c := Op.run plainEngine shortKernel (newConn 7 .tcp)
      [.write (ascii "hello"), .sendfile (some ⟨1, 4, ascii "file", none⟩) 0 5, .flush 3]
    c.accepted = ascii "hel" ∧ c.sizes.sum = c.accepted.length :=
  ⟨by decide, (sizes_eq_accepted_iff rfl shortKernel ⟨rfl, rfl⟩ _).2
    (by decide)⟩

/-- Nothing is reported of a `Writev` that the kernel takes whole, and nothing of a file that is
sent at once. -/
theorem sizes_lt_accepted :
    let v := Op.run plainEngine shortKernel (newConn 7 .tcp) [.writev [ascii "a", ascii "bc"]]
    let f := Op.run plainEngine shortKernel (newConn 7 .tcp)
      [.sendfile (some ⟨0, 4, ascii "file", none⟩) 0 3]
    v.accepted = ascii "abc" ∧ v.sizes.sum = 0 ∧ f.accepted = ascii "file" ∧ f.sizes.sum = 0 := by
  decide

end Nbio.Net
