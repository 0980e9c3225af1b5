import Nbio.Go.Slice
import Nbio.Lib.Log
import Nbio.Lib.Machine
import Nbio.Net.Conn

/-!
# The buffers of asynchronous reads

A task of `AsyncRead` reads into a buffer that `IOTaskPool.Go` takes from a pool and puts back at
its end.  Behind a read the task cuts the buffer to what has been read, `*pbuf = (*pbuf)[:n]`, and
nothing restores its length: neither the task, before its next read, nor the pool.  A read is
therefore given the length of the last read of the same buffer that returned anything, whoever made
it (`Inv.calls`).

One step is the beginning of a task, one read with what follows it up to the next read, and the end
of a pass.  Whether a task makes another pass is up to `readEvents`, which is not part of the state
here.
-/

namespace Nbio.Net.ReadBuffers

open Nbio.Go List Option
open Nbio.Lib

structure Conf where
  readBufferSize : Nat
  maxConnReadTimesPerEventLoop : Nat

/-- What `ReadAndGetConn` finds: bytes of a stream or a datagram, or an error. -/
inductive Answer where
  | data (bytes : Bytes)
  | error (err : Err)
deriving DecidableEq, Repr

/-- A call of `ReadAndGetConn`: the buffer and its length, what was at the socket, and what was
handed to `onDataPtr`. -/
structure ReadCall where
  pbuf : Nat
  len : Nat
  isDatagram : Bool
  offered : Bytes
  delivered : Bytes
deriving DecidableEq, Repr

/-- Where a task is: before read `i` of a pass, or behind the pass. -/
inductive Phase where
  | reading (i : Nat)
  | passed
deriving DecidableEq, Repr

structure Task where
  pbuf : Nat
  isDatagram : Bool
  phase : Phase
deriving DecidableEq, Repr

structure State where
  /-- The buffers that `New` has made. -/
  buffers : List Slice
  idle : List Nat
  tasks : List Task
  reads : List ReadCall
deriving DecidableEq, Repr

def init : State := { buffers := [], idle := [], tasks := [], reads := [] }

inductive Event where
  /-- A task begins, with buffer `n` of the pool or with a new one. -/
  | go (isDatagram : Bool) (n : Option Nat)
  | read (t : Nat) (answer : Answer)
  | again (t : Nat)
  /-- Task `t` ends and puts its buffer back. -/
  | put (t : Nat)
deriving DecidableEq, Repr

def Conf.loop (conf : Conf) (i : Nat) : Phase :=
  if i < conf.maxConnReadTimesPerEventLoop then .reading i else .passed

/-- The buffer behind a read that finds `bytes`, of which it takes what fits: cut to `n` if `n >
0`. -/
def received (b : Slice) (bytes : Bytes) : Slice :=
  let data := bytes.take b.len
  if data ≠ [] then (b.copyAt 0 data).cut data.length else b

def handed (b : Slice) (bytes : Bytes) : Bytes :=
  if bytes.take b.len ≠ [] then (received b bytes).bytes else []

def State.put (s : State) (t pbuf : Nat) : State :=
  { s with tasks := s.tasks.eraseIdx t, idle := s.idle ++ [pbuf] }

def State.goOn (s : State) (t : Nat) (task : Task) (phase : Phase) : State :=
  { s with tasks := s.tasks.set t { task with phase := phase } }

def State.read (conf : Conf) (s : State) (t : Nat) (task : Task) (i : Nat) (b : Slice) :
    Answer → State
  | .data bytes =>
    let s : State := { s with
      buffers := s.buffers.set task.pbuf (received b bytes)
      reads := s.reads ++ [⟨task.pbuf, b.len, task.isDatagram, bytes, handed b bytes⟩] }
    let n := (bytes.take b.len).length
    if n < (received b bytes).len && !task.isDatagram then s.goOn t task .passed
    else s.goOn t task (conf.loop (i + 1))
  | .error err =>
    let s : State := { s with
      reads := s.reads ++ [⟨task.pbuf, b.len, task.isDatagram, [], []⟩] }
    match err with
    | .errno .eintr => s.goOn t task (conf.loop (i + 1))
    | .errno .eagain => s.goOn t task .passed
    -- the connection is closed
    | _ => s.put t task.pbuf

def step (conf : Conf) (s : State) : Event → Option State
  | .go isDatagram none =>
    some { s with
      buffers := s.buffers ++ [Slice.make conf.readBufferSize]
      tasks := s.tasks ++ [⟨s.buffers.length, isDatagram, conf.loop 0⟩] }
  | .go isDatagram (some n) =>
    s.idle[n]?.map fun pbuf =>
      { s with
        idle := s.idle.eraseIdx n
        tasks := s.tasks ++ [⟨pbuf, isDatagram, conf.loop 0⟩] }
  | .read t answer =>
    s.tasks[t]?.bind fun task =>
      s.buffers[task.pbuf]?.bind fun b =>
        match task.phase with
        | .reading i => some (s.read conf t task i b answer)
        | .passed => none
  | .again t =>
    s.tasks[t]?.bind fun task =>
      if task.phase = .passed then some (s.goOn t task (conf.loop 0)) else none
  | .put t =>
    s.tasks[t]?.bind fun task =>
      if task.phase = .passed then some (s.put t task.pbuf) else none

/-! ## What a step does to the buffers -/

/-- A step makes no read, makes a buffer, or makes a read. -/
inductive Effect (conf : Conf) (s u : State) : Prop where
  | same (hbuffers : u.buffers = s.buffers) (hreads : u.reads = s.reads)
  | made (hbuffers : u.buffers = s.buffers ++ [Slice.make conf.readBufferSize])
    (hreads : u.reads = s.reads)
  | read (pbuf : Nat) (b : Slice) (isDatagram : Bool) (bytes : Bytes)
    (hbuf : s.buffers[pbuf]? = some b)
    (hbuffers : u.buffers = s.buffers.set pbuf (received b bytes))
    (hreads : u.reads = s.reads ++ [⟨pbuf, b.len, isDatagram, bytes, handed b bytes⟩])

variable {conf : Conf} {s u : State}

theorem received_nil (b : Slice) : received b [] = b := by
  simp [received]

theorem handed_nil (b : Slice) : handed b [] = [] := by
  simp [handed]

theorem read_effect {t i : Nat} {task : Task} {b : Slice} (hbuf : s.buffers[task.pbuf]? = some b)
    (answer : Answer) : Effect conf s (s.read conf t task i b answer) := by
  cases answer with
  | data bytes =>
    refine .read task.pbuf b task.isDatagram bytes hbuf ?_ ?_
    · unfold State.read
      dsimp only
      split <;> rfl
    · unfold State.read
      dsimp only
      split <;> rfl
  | error err =>
    -- an error leaves the buffer as it is
    have hset : s.buffers.set task.pbuf (received b []) = s.buffers := by
      rw [received_nil]
      obtain ⟨hlt, heq⟩ := List.getElem?_eq_some_iff.1 hbuf
      rw [← heq]
      exact set_getElem_self hlt
    refine .read task.pbuf b task.isDatagram [] hbuf ?_ ?_
    · rw [hset]
      unfold State.read
      dsimp only
      split <;> rfl
    · rw [handed_nil]
      unfold State.read
      dsimp only
      split <;> rfl

theorem step_effect {e : Event} (h : step conf s e = some u) : Effect conf s u := by
  cases e with
  | go isDatagram n =>
    cases n with
    | none =>
      cases h
      exact .made rfl rfl
    | some n =>
      obtain ⟨pbuf, -, rfl⟩ := map_eq_some_iff.1 h
      exact .same rfl rfl
  | read t answer =>
    obtain ⟨task, -, h⟩ := bind_eq_some_iff.1 h
    obtain ⟨b, hbuf, h⟩ := bind_eq_some_iff.1 h
    cases hphase : task.phase with
    | passed =>
      rw [hphase] at h
      cases h
    | reading i =>
      rw [hphase] at h
      cases h
      exact read_effect hbuf answer
  | again t =>
    obtain ⟨task, -, h⟩ := bind_eq_some_iff.1 h
    split at h
    · cases h
      exact .same rfl rfl
    · cases h
  | put t =>
    obtain ⟨task, -, h⟩ := bind_eq_some_iff.1 h
    split at h
    · cases h
      exact .same rfl rfl
    · cases h

/-! ## The length of a buffer -/

/-- The length of buffer `pbuf` behind these reads: what the last one that returned anything has
left. -/
def currentLen (size : Nat) (reads : List ReadCall) (pbuf : Nat) : Nat :=
  reads.foldl (fun len r => if r.pbuf = pbuf ∧ r.delivered ≠ [] then r.delivered.length
    else len) size

theorem currentLen_snoc (size : Nat) (reads : List ReadCall) (r : ReadCall) (pbuf : Nat) :
    currentLen size (reads ++ [r]) pbuf =
      if r.pbuf = pbuf ∧ r.delivered ≠ [] then r.delivered.length
        else currentLen size reads pbuf := by
  rw [currentLen, foldl_append]
  rfl

theorem currentLen_other {size pbuf : Nat} (reads : List ReadCall) {others : List ReadCall}
    (h : ∀ r ∈ others, r.pbuf ≠ pbuf) :
    currentLen size (reads ++ others) pbuf = currentLen size reads pbuf := by
  induction others using reverseRecOn with
  | nil => rw [append_nil]
  | append_singleton others r ih =>
    have hr := h r (by simp)
    rw [← append_assoc, currentLen_snoc, if_neg fun hcond => hr hcond.1]
    exact ih fun r' hr' => h r' (by simp [hr'])

theorem currentLen_cases (size : Nat) (reads : List ReadCall) (pbuf : Nat) :
    currentLen size reads pbuf = size ∨
      ∃ pre r mid, reads = pre ++ r :: mid ∧ r.pbuf = pbuf ∧ r.delivered ≠ [] ∧
        currentLen size reads pbuf = r.delivered.length := by
  induction reads using reverseRecOn with
  | nil => exact .inl rfl
  | append_singleton reads r ih =>
    rw [currentLen_snoc]
    split
    · next hcond => exact .inr ⟨reads, r, [], rfl, hcond.1, hcond.2, rfl⟩
    · rcases ih with hsize | ⟨pre, r', mid, rfl, hpbuf, hne, hlen⟩
      · exact .inl hsize
      · exact .inr ⟨pre, r', mid ++ [r], by simp, hpbuf, hne, hlen⟩

/-- A read is given what `currentLen` says, and takes what fits. -/
def Chained (size : Nat) (pre : List ReadCall) (r : ReadCall) : Prop :=
  r.len = currentLen size pre r.pbuf ∧ r.delivered = r.offered.take r.len

structure Inv (size : Nat) (s : State) : Prop where
  lens : ∀ pbuf b, s.buffers[pbuf]? = some b → b.len = currentLen size s.reads pbuf
  made : ∀ r ∈ s.reads, r.pbuf < s.buffers.length
  calls : Justified (Chained size) s.reads

theorem init_inv (size : Nat) : Inv size init where
  lens := by simp [init]
  made := by simp [init]
  calls := .nil

theorem handed_eq (b : Slice) (bytes : Bytes) : handed b bytes = bytes.take b.len := by
  unfold handed received
  dsimp only
  split
  · rw [Slice.bytes_copyAt_cut]
    rw [length_take]
    omega
  · next hnil => exact (not_ne_iff.1 hnil).symm

theorem len_received (b : Slice) (bytes : Bytes) :
    (received b bytes).len = if handed b bytes ≠ [] then (handed b bytes).length else b.len := by
  rw [handed_eq]
  unfold received
  dsimp only
  split
  · rw [← Slice.length_bytes, Slice.bytes_copyAt_cut]
    rw [length_take]
    omega
  · rfl

theorem Inv.step {e : Event} (h : Inv conf.readBufferSize s) (hstep : step conf s e = some u) :
    Inv conf.readBufferSize u := by
  cases step_effect hstep with
  | same hbuffers hreads =>
    exact ⟨by rw [hbuffers, hreads]; exact h.lens, by rw [hbuffers, hreads]; exact h.made,
      by rw [hreads]; exact h.calls⟩
  | made hbuffers hreads =>
    refine ⟨?_, ?_, by rw [hreads]; exact h.calls⟩
    · intro pbuf b hbuf
      rw [hbuffers, getElem?_append] at hbuf
      rw [hreads]
      split at hbuf
      · exact h.lens pbuf b hbuf
      · next hge =>
        -- a new buffer has not been read
        have hfresh : ∀ r ∈ s.reads, r.pbuf ≠ pbuf := by
          intro r hr
          have hlt := h.made r hr
          omega
        have hlen : currentLen conf.readBufferSize ([] ++ s.reads) pbuf = conf.readBufferSize :=
          currentLen_other [] hfresh
        rw [nil_append] at hlen
        rw [hlen]
        rw [getElem?_singleton] at hbuf
        split at hbuf
        · cases hbuf
          rfl
        · cases hbuf
    · intro r hr
      have hlt := h.made r (by rw [← hreads]; exact hr)
      rw [hbuffers, length_append]
      omega
  | read pbuf b isDatagram bytes hbuf hbuffers hreads =>
    have hlen := h.lens pbuf b hbuf
    refine ⟨?_, ?_, ?_⟩
    · intro pbuf' b' hbuf'
      rw [hreads, currentLen_snoc]
      rw [hbuffers, getElem?_set] at hbuf'
      split at hbuf'
      · next hsame =>
        subst hsame
        split at hbuf'
        · cases hbuf'
          rw [len_received, hlen]
          simp only [true_and]
        · cases hbuf'
      · next hother =>
        rw [if_neg fun hcond => hother hcond.1]
        exact h.lens pbuf' b' hbuf'
    · intro r hr
      rw [hbuffers, length_set]
      rw [hreads, mem_append, mem_singleton] at hr
      rcases hr with hr | rfl
      · exact h.made r hr
      · exact (List.getElem?_eq_some_iff.1 hbuf).1
    · rw [hreads]
      exact h.calls.snoc ⟨hlen, handed_eq b bytes⟩

/-! ## Full buffers -/

/-- No read uses a buffer behind one that has returned something and not filled it. -/
def Undisturbed (size : Nat) (reads : List ReadCall) : Prop :=
  ∀ pre r mid r' post, reads = pre ++ r :: (mid ++ r' :: post) → r.pbuf = r'.pbuf →
    r.delivered ≠ [] → r.delivered.length = size

/-- If all reads are given the full length, the next read of a buffer says what the one before it
has left. -/
theorem undisturbed_of_full {size : Nat} {reads : List ReadCall}
    (h : Justified (Chained size) reads)
    (hfull : ∀ r ∈ reads, r.len = size) : Undisturbed size reads := by
  intro pre r mid r' post hsplit hpbuf hne
  induction hn : mid.length using Nat.strong_induction_on generalizing mid r' post with
  | _ n ih =>
    by_cases hother : ∀ x ∈ mid, x.pbuf ≠ r'.pbuf
    · have hsplit' : reads = (pre ++ [r] ++ mid) ++ r' :: post := by simpa using hsplit
      have hlen := (h _ _ _ hsplit').1
      rw [currentLen_other _ hother, currentLen_snoc, if_pos ⟨hpbuf, hne⟩] at hlen
      rw [← hlen]
      exact hfull r' (by rw [hsplit']; simp)
    · -- another read of the buffer in between comes first
      obtain ⟨x, hx, hxpbuf⟩ : ∃ x ∈ mid, x.pbuf = r'.pbuf := by simpa using hother
      obtain ⟨mid₁, mid₂, rfl⟩ := append_of_mem hx
      refine ih mid₁.length ?_ mid₁ x (mid₂ ++ r' :: post) ?_ (hpbuf.trans hxpbuf.symm) rfl
      · rw [← hn, length_append, length_cons]
        omega
      · simpa using hsplit

theorem full_of_undisturbed {size : Nat} {reads : List ReadCall}
    (h : Justified (Chained size) reads)
    (hrest : Undisturbed size reads) : ∀ r ∈ reads, r.len = size := by
  intro r hr
  obtain ⟨pre, post, rfl⟩ := append_of_mem hr
  rw [(h _ _ _ rfl).1]
  rcases currentLen_cases size pre r.pbuf with hsize | ⟨pre', r', mid, rfl, hpbuf, hne, hlen⟩
  · exact hsize
  · rw [hlen]
    exact hrest pre' r' mid r post (by simp) hpbuf hne

/-- However tasks begin, read and end: all reads are given a buffer of `ReadBufferSize` bytes, and
so take every datagram of this size, exactly if no read uses a buffer behind one that has returned
something and not filled it. -/
theorem async_reads_full_iff (conf : Conf) (s : State)
    (h : Reaches (step conf) (fun _ _ => True) init s) :
    ((∀ r ∈ s.reads, r.len = conf.readBufferSize) ∧
      ∀ r ∈ s.reads, r.isDatagram = true → r.offered.length ≤ conf.readBufferSize →
        r.delivered = r.offered) ↔
      Undisturbed conf.readBufferSize s.reads := by
  have hinv : Inv conf.readBufferSize s :=
    h.invariant (init_inv _) fun _ _ _ ht _ hstep => ht.step hstep
  constructor
  · rintro ⟨hfull, -⟩
    exact undisturbed_of_full hinv.calls hfull
  · intro hrest
    have hfull := full_of_undisturbed hinv.calls hrest
    refine ⟨hfull, ?_⟩
    intro r hr _ hfits
    obtain ⟨_, _, -, hdelivered⟩ := hinv.calls.of_mem hr
    rw [hdelivered, hfull r hr]
    exact take_of_length_le hfits

/-- A datagram that fills the buffer leaves it as it is for the next one. -/
theorem async_reads_full_iff_filled :
    ∃ s, [Event.go true none, .read 0 (.data [1, 2, 3, 4]), .read 0 (.data [5, 6])].foldlM
        (guarded (step ⟨4, 3⟩) fun _ _ => true) init = some s ∧
      s.reads.map ReadCall.delivered = [[1, 2, 3, 4], [5, 6]] ∧ Undisturbed 4 s.reads := by
  obtain ⟨s, hrun, hdelivered, hfull, hdatagrams⟩ :
      ∃ s, [Event.go true none, .read 0 (.data [1, 2, 3, 4]), .read 0 (.data [5, 6])].foldlM
          (guarded (step ⟨4, 3⟩) fun _ _ => true) init = some s ∧
        s.reads.map ReadCall.delivered = [[1, 2, 3, 4], [5, 6]] ∧
        (∀ r ∈ s.reads, r.len = 4) ∧
        ∀ r ∈ s.reads, r.isDatagram = true → r.offered.length ≤ 4 → r.delivered = r.offered :=
    ⟨_, rfl, by decide, by decide, by decide⟩
  have hreach : Reaches (step ⟨4, 3⟩) (fun _ _ => True) init s :=
    (Reaches.of_foldlM hrun).mono fun _ _ _ => trivial
  exact ⟨s, hrun, hdelivered, (async_reads_full_iff ⟨4, 3⟩ s hreach).1 ⟨hfull, hdatagrams⟩⟩

/-- A datagram of one byte leaves room for one byte of the next one, in the same task and, once its
buffer is back in the pool, in that of another connection. -/
theorem async_read_truncates :
    ∃ s, [Event.go true none, .read 0 (.data [1]), .read 0 (.data [2, 3]),
        .read 0 (.error (.errno .eagain)), .put 0, .go true (some 0),
        .read 0 (.data [4, 5])].foldlM (step ⟨4, 3⟩) init = some s ∧
      s.reads.map (fun r => (r.len, r.offered, r.delivered)) =
        [(4, [1], [1]), (1, [2, 3], [2]), (1, [], []), (1, [4, 5], [4])] :=
  ⟨_, rfl, by decide⟩

end Nbio.Net.ReadBuffers
