import Nbio.Lib.Machine
import Nbio.Websocket.Conn

/-!
# The send queue of a WebSocket connection

In blocking mode `writeFrame` appends its frame to a queue under the lock of the connection, and the
call that finds the queue empty starts a goroutine that writes the frames to the connection below,
one after the other.  The goroutine walks the queue by an index and takes each buffer out of its
slot; the queue is only cut back when the goroutine has reached its end.  `CloseAndClean` frees what
is still in the queue.

The buffers are numbered in the order in which they are allocated.  Writing, freeing and taking the
next buffer are separate steps of the goroutine; everything else is done under the lock in one.
Writes to the connection below succeed.
-/

namespace Nbio.Websocket.SendQueue

open Nbio.Go Nbio.Lib List

/-- A frame in a buffer of the allocator. -/
structure Buffer where
  id : Nat
  frame : Bytes
deriving DecidableEq, Repr

/-- How far the goroutine is with its buffer: it is about to write it, to free it, to take the
lock. -/
inductive Phase where
  | writing | freeing | locking
deriving DecidableEq, Repr

/-- The goroutine of `writeFrame` with its two variables. -/
structure Writer where
  phase : Phase
  i : Nat
  pbuf : Buffer
deriving DecidableEq, Repr

/-- The fields of `Conn` that sending uses, and the goroutines.  `mallocs` counts the allocations;
`enqueued`, `written` and `freed` record what was appended to the queue, written and freed. -/
structure State where
  closed : Bool
  sendQueue : List (Option Buffer)
  writers : List Writer
  mallocs : Nat
  enqueued : List Buffer
  written : List Buffer
  freed : List Nat
deriving DecidableEq, Repr

def init : State where
  closed := false
  sendQueue := []
  writers := []
  mallocs := 0
  enqueued := []
  written := []
  freed := []

/-! ## The methods -/

/-- The end of `writeFrame`, for a connection with a queue; a size of zero is no limit. -/
def writeFrame (sendQueueSize : Nat) (s : State) (frame : Bytes) : Option Err × State :=
  let pbuf : Buffer := { id := s.mallocs, frame := frame }
  let s := { s with mallocs := s.mallocs + 1 }
  if 0 < sendQueueSize ∧ sendQueueSize ≤ s.sendQueue.length then
    (some .messageSendQuqueIsFull, { s with freed := s.freed ++ [pbuf.id] })
  else
    let s := { s with sendQueue := s.sendQueue ++ [some pbuf], enqueued := s.enqueued ++ [pbuf] }
    if s.sendQueue.length = 1 then
      let writer : Writer := { phase := .writing, i := 0, pbuf := pbuf }
      (none, { s with sendQueue := s.sendQueue.set 0 none, writers := s.writers ++ [writer] })
    else (none, s)

/-- `WriteFrame`, and each round of the loop of `WriteMessage`, which has the lock all along. -/
def WriteFrame (sendQueueSize : Nat) (s : State) (frame : Bytes) : Option Err × State :=
  if s.closed then (some .closed, s) else writeFrame sendQueueSize s frame

def CloseAndClean (s : State) : State :=
  if s.closed then s
  else
    { s with
      closed := true
      sendQueue := s.sendQueue.map fun _ => none
      freed := s.freed ++ s.sendQueue.filterMap (Option.map Buffer.id) }

def write (s : State) (n : Nat) (w : Writer) : State :=
  { s with
    writers := s.writers.set n { w with phase := .freeing }
    written := s.written ++ [w.pbuf] }

def free (s : State) (n : Nat) (w : Writer) : State :=
  { s with
    writers := s.writers.set n { w with phase := .locking }
    freed := s.freed ++ [w.pbuf.id] }

/-- The lock of the goroutine, behind a buffer. -/
def next (s : State) (n : Nat) (w : Writer) : State :=
  let i := w.i + 1
  if s.closed then { s with writers := s.writers.eraseIdx n }
  else if s.sendQueue.length ≤ i then
    { s with sendQueue := [], writers := s.writers.eraseIdx n }
  else
    let queue := s.sendQueue.set i none
    match s.sendQueue[i]?.join with
    | none => { s with sendQueue := queue, writers := s.writers.eraseIdx n }
    | some pbuf =>
      { s with
        sendQueue := queue
        writers := s.writers.set n { phase := .writing, i := i, pbuf := pbuf } }

inductive Event where
  | writeFrame (frame : Bytes)
  | closeAndClean
  | writer (n : Nat)
deriving DecidableEq, Repr

def step (sendQueueSize : Nat) (s : State) : Event → Option State
  | .writeFrame frame => some (WriteFrame sendQueueSize s frame).2
  | .closeAndClean => some (CloseAndClean s)
  | .writer n => s.writers[n]?.map fun w =>
    match w.phase with
    | .writing => write s n w
    | .freeing => free s n w
    | .locking => next s n w

/-! ## Order -/

def Writer.wrote (w : Writer) : Nat := if w.phase = .writing then w.i else w.i + 1

def Writer.due (w : Writer) : List Buffer := if w.phase = .writing then [w.pbuf] else []

/-- Nobody has a frame to write, or one goroutine works on the frames `batch`, or the connection is
closed and a last frame may be written. -/
inductive Ordered (s : State) : Prop where
  | idle (hqueue : s.sendQueue = []) (hwriters : s.writers = []) (hwritten : s.written = s.enqueued)
  | busy (done batch : List Buffer) (w : Writer) (hopen : s.closed = false)
    (hwriters : s.writers = [w])
    (henqueued : s.enqueued = done ++ batch) (hbuf : batch[w.i]? = some w.pbuf)
    (hqueue : s.sendQueue = replicate (w.i + 1) none ++ (batch.drop (w.i + 1)).map some)
    (hwritten : s.written = done ++ batch.take w.wrote)
  | ended (hclosed : s.closed = true) (hwriters : s.writers.length ≤ 1)
    (hwritten : s.written ++ s.writers.flatMap Writer.due <+: s.enqueued)

theorem init_ordered : Ordered init := .idle rfl rfl rfl

variable {s : State} {n : Nat} {w : Writer} {sendQueueSize : Nat}

theorem take_wrote_due {batch : List Buffer} (hbuf : batch[w.i]? = some w.pbuf) :
    batch.take w.wrote ++ w.due = batch.take (w.i + 1) := by
  unfold Writer.wrote Writer.due
  split
  · rw [take_add_one, hbuf]
    rfl
  · rw [append_nil]

theorem WriteFrame_ordered (h : Ordered s) (frame : Bytes) :
    Ordered (WriteFrame sendQueueSize s frame).2 := by
  unfold WriteFrame
  split
  · exact h
  · next hclosed =>
    have hopen : s.closed = false := Bool.eq_false_iff.2 hclosed
    unfold writeFrame
    dsimp only
    split
    · -- the queue is full
      cases h with
      | idle hqueue hwriters hwritten => exact .idle hqueue hwriters hwritten
      | busy done batch w hopen hwriters henqueued hbuf hqueue hwritten =>
        exact .busy done batch w hopen hwriters henqueued hbuf hqueue hwritten
      | ended hclosed' => exact absurd hclosed' hclosed
    · cases h with
      | idle hqueue hwriters hwritten =>
        rw [hqueue, hwriters]
        exact .busy s.enqueued [{ id := s.mallocs, frame := frame }] _ hopen rfl rfl rfl rfl
          (by simp [hwritten, Writer.wrote])
      | busy done batch w hopen hwriters henqueued hbuf hqueue hwritten =>
        have hi : w.i < batch.length := (List.getElem?_eq_some_iff.1 hbuf).1
        have hlong : (s.sendQueue ++ [some (Buffer.mk s.mallocs frame)]).length ≠ 1 := by
          simp [hqueue]
          omega
        rw [if_neg hlong]
        refine .busy done (batch ++ [{ id := s.mallocs, frame := frame }]) w hopen hwriters
          ?_ ?_ ?_ ?_
        · rw [henqueued, append_assoc]
        · rw [getElem?_append_left hi, hbuf]
        · rw [drop_append_of_le_length (by omega), hqueue]
          simp
        · have hwrote : w.wrote ≤ batch.length := by
            unfold Writer.wrote
            split <;> omega
          rw [take_append_of_le_length hwrote]
          exact hwritten
      | ended hclosed' => exact absurd hclosed' hclosed

theorem CloseAndClean_ordered (h : Ordered s) : Ordered (CloseAndClean s) := by
  unfold CloseAndClean
  split
  · exact h
  · cases h with
    | idle hqueue hwriters hwritten => exact .idle (by simp [hqueue]) hwriters hwritten
    | busy done batch w hopen hwriters henqueued hbuf hqueue hwritten =>
      refine .ended rfl (by simp [hwriters]) ?_
      simp only [hwriters, hwritten, henqueued, flatMap_singleton, append_assoc]
      rw [take_wrote_due hbuf]
      exact (prefix_append_right_inj done).2 (List.take_prefix _ _)
    | ended hclosed' hwriters hwritten => exact .ended rfl hwriters hwritten

theorem Ordered.alone (h : Ordered s) : s.writers.length ≤ 1 := by
  cases h with
  | idle hqueue hwriters hwritten => simp [hwriters]
  | busy done batch w' hopen hwriters => simp [hwriters]
  | ended hclosed hwriters hwritten => exact hwriters

theorem single_writer (hone : s.writers.length ≤ 1) (hw : s.writers[n]? = some w) :
    n = 0 ∧ s.writers = [w] := by
  obtain ⟨hn, hget⟩ := List.getElem?_eq_some_iff.1 hw
  obtain rfl : n = 0 := by omega
  obtain ⟨w', hwriters⟩ := length_eq_one_iff.1 (show s.writers.length = 1 by omega)
  rw [hwriters] at hw ⊢
  exact ⟨rfl, congrArg (fun w => [w]) (Option.some.inj hw)⟩

theorem Ordered.writer (h : Ordered s) (hw : s.writers[n]? = some w) : n = 0 ∧ s.writers = [w] :=
  single_writer h.alone hw

theorem Ordered.at_work (h : Ordered s) (hsingle : s.writers = [w]) :
    (∃ done batch, s.closed = false ∧ s.enqueued = done ++ batch ∧ batch[w.i]? = some w.pbuf ∧
        s.sendQueue = replicate (w.i + 1) none ++ (batch.drop (w.i + 1)).map some ∧
        s.written = done ++ batch.take w.wrote) ∨
      s.closed = true ∧ s.written ++ w.due <+: s.enqueued := by
  cases h with
  | idle hqueue hwriters hwritten => simp [hwriters] at hsingle
  | busy done batch w' hopen hwriters henqueued hbuf hqueue hwritten =>
    obtain rfl : w' = w := singleton_inj.1 (hwriters ▸ hsingle)
    exact .inl ⟨done, batch, hopen, henqueued, hbuf, hqueue, hwritten⟩
  | ended hclosed hwriters hwritten =>
    rw [hsingle, flatMap_singleton] at hwritten
    exact .inr ⟨hclosed, hwritten⟩

section

variable (h : Ordered s) (hw : s.writers[n]? = some w)

include h hw

theorem write_ordered (hphase : w.phase = .writing) :
    Ordered (write s n w) := by
  obtain ⟨rfl, hsingle⟩ := h.writer hw
  rcases h.at_work hsingle with
    ⟨done, batch, hopen, henqueued, hbuf, hqueue, hwritten⟩ | ⟨hclosed, hwritten⟩
  · refine .busy done batch { w with phase := .freeing } hopen ?_ henqueued hbuf hqueue ?_
    · simp [write, hsingle]
    · have hstep := take_wrote_due hbuf
      rw [Writer.due, if_pos hphase] at hstep
      simp only [write, hwritten, append_assoc, hstep]
      rfl
  · refine .ended hclosed (by simp [write, hsingle]) ?_
    simpa [write, hsingle, Writer.due, hphase] using hwritten

theorem free_ordered (hphase : w.phase = .freeing) :
    Ordered (free s n w) := by
  obtain ⟨rfl, hsingle⟩ := h.writer hw
  rcases h.at_work hsingle with
    ⟨done, batch, hopen, henqueued, hbuf, hqueue, hwritten⟩ | ⟨hclosed, hwritten⟩
  · refine .busy done batch { w with phase := .locking } hopen ?_ henqueued hbuf hqueue ?_
    · simp [free, hsingle]
    · rw [Writer.wrote, hphase] at hwritten
      exact hwritten
  · refine .ended hclosed (by simp [free, hsingle]) ?_
    simpa [free, hsingle, Writer.due, hphase] using hwritten

theorem next_ordered (hphase : w.phase = .locking) :
    Ordered (next s n w) := by
  obtain ⟨rfl, hsingle⟩ := h.writer hw
  unfold next
  rcases h.at_work hsingle with
    ⟨done, batch, hopen, henqueued, hbuf, hqueue, hwritten⟩ | ⟨hclosed, hwritten⟩
  · rw [Writer.wrote, hphase] at hwritten
    rw [if_neg (Bool.eq_false_iff.1 hopen)]
    by_cases hend : s.sendQueue.length ≤ w.i + 1
    · rw [if_pos hend]
      refine .idle rfl (by simp [hsingle]) ?_
      have hall : batch.length ≤ w.i + 1 := by
        simp [hqueue] at hend
        omega
      exact (take_of_length_le hall ▸ hwritten).trans henqueued.symm
    · have hnext : w.i + 1 < batch.length := by
        simp [hqueue] at hend
        omega
      rw [drop_eq_getElem_cons hnext, map_cons] at hqueue
      have hslot : s.sendQueue[w.i + 1]? = some (some batch[w.i + 1]) := by simp [hqueue]
      rw [if_neg hend, hslot]
      refine .busy done batch { phase := .writing, i := w.i + 1, pbuf := batch[w.i + 1] } hopen ?_
        henqueued (getElem?_eq_getElem hnext) ?_ hwritten
      · simp [hsingle]
      · rw [hqueue, replicate_succ' (n := w.i + 1)]
        simp
  · rw [if_pos hclosed]
    refine .ended hclosed (by simp [hsingle]) ?_
    have hlast := (prefix_append _ _).trans hwritten
    simpa [hsingle] using hlast

end

/-! ## Every buffer is in one place -/

def slotHolds (b : Nat) : Option Buffer → Nat
  | some pbuf => if pbuf.id = b then 1 else 0
  | none => 0

/-- Whether a goroutine holds buffer `b`, which it does until it has freed it. -/
def Writer.holds (b : Nat) (w : Writer) : Nat :=
  if w.phase ≠ .locking ∧ w.pbuf.id = b then 1 else 0

def allocated (mallocs b : Nat) : Nat := if b < mallocs then 1 else 0

theorem allocated_le (mallocs b : Nat) : allocated mallocs b ≤ 1 := by
  unfold allocated
  split <;> omega

/-- A buffer that was allocated has been freed once, is in one slot or is held by one goroutine. -/
def Accounted (s : State) : Prop :=
  ∀ b, s.freed.count b + total (slotHolds b) s.sendQueue + total (Writer.holds b) s.writers =
    allocated s.mallocs b

theorem init_accounted : Accounted init := fun _ => rfl

theorem WriteFrame_accounted (h : Accounted s) (frame : Bytes) :
    Accounted (WriteFrame sendQueueSize s frame).2 := by
  intro b
  have hb := h b
  have hnew : allocated (s.mallocs + 1) b =
      allocated s.mallocs b + if s.mallocs = b then 1 else 0 := by
    unfold allocated
    split <;> split <;> split <;> omega
  unfold WriteFrame writeFrame
  split
  · exact hb
  · dsimp only
    split
    · rw [count_append, count_singleton]
      simp only [beq_iff_eq]
      omega
    · split
      · next hfirst =>
        have hempty : s.sendQueue = [] := by
          cases hqueue : s.sendQueue with
          | nil => rfl
          | cons a as => simp [hqueue] at hfirst
        rw [hempty] at hb ⊢
        simp only [total_append, Writer.holds]
        simp [total, slotHolds] at hb ⊢
        omega
      · simp only [total_append, slotHolds]
        omega

theorem total_slotHolds (b : Nat) (queue : List (Option Buffer)) :
    total (slotHolds b) queue = (queue.filterMap (Option.map Buffer.id)).count b := by
  induction queue with
  | nil => rfl
  | cons slot queue ih =>
    cases slot with
    | none => simpa [total, slotHolds] using ih
    | some pbuf =>
      simp only [total, map_cons, sum_cons, slotHolds] at ih ⊢
      simp only [filterMap_cons, Option.map_some, count_cons, beq_iff_eq]
      omega

theorem CloseAndClean_accounted (h : Accounted s) : Accounted (CloseAndClean s) := by
  intro b
  have hb := h b
  unfold CloseAndClean
  split
  · exact hb
  · have hslots := total_slotHolds b s.sendQueue
    have hnone : total (slotHolds b) (s.sendQueue.map fun _ => none) = 0 := by
      simp [total_slotHolds]
    simp only [count_append]
    omega

theorem write_accounted (h : Accounted s) (hw : s.writers[n]? = some w)
    (hphase : w.phase = .writing) : Accounted (write s n w) := by
  intro b
  have hb := h b
  have hset := total_set (Writer.holds b) hw { w with phase := .freeing }
  have hsame : Writer.holds b { w with phase := .freeing } = w.holds b := by
    simp [Writer.holds, hphase]
  dsimp only [write]
  omega

theorem free_accounted (h : Accounted s) (hw : s.writers[n]? = some w)
    (hphase : w.phase = .freeing) : Accounted (free s n w) := by
  intro b
  have hb := h b
  have hset := total_set (Writer.holds b) hw { w with phase := .locking }
  have hlast : Writer.holds b { w with phase := .locking } = 0 := by simp [Writer.holds]
  have hfirst : w.holds b = if w.pbuf.id = b then 1 else 0 := by simp [Writer.holds, hphase]
  dsimp only [free]
  rw [count_append, count_singleton]
  simp only [beq_iff_eq]
  omega

theorem Ordered.drained (h : Ordered s) (hw : s.writers[n]? = some w) (hopen : s.closed = false)
    (hend : s.sendQueue.length ≤ w.i + 1) (b : Nat) : total (slotHolds b) s.sendQueue = 0 := by
  rcases h.at_work (h.writer hw).2 with ⟨done, batch, -, -, -, hqueue, -⟩ | ⟨hclosed, -⟩
  · have hall : batch.length ≤ w.i + 1 := by
      simp [hqueue] at hend
      omega
    rw [total_slotHolds, hqueue, drop_of_length_le hall]
    simp
  · exact absurd hopen (Bool.eq_false_iff.1 · hclosed)

theorem next_accounted (h : Accounted s) (hordered : Ordered s) (hw : s.writers[n]? = some w)
    (hphase : w.phase = .locking) : Accounted (next s n w) := by
  intro b
  have hb := h b
  have herase := total_eraseIdx (Writer.holds b) hw
  have hfirst : w.holds b = 0 := by simp [Writer.holds, hphase]
  unfold next
  by_cases hclosed : s.closed
  · rw [if_pos hclosed]
    dsimp only
    omega
  · rw [if_neg hclosed]
    by_cases hend : s.sendQueue.length ≤ w.i + 1
    · have hdrained := hordered.drained hw (Bool.eq_false_iff.2 hclosed) hend b
      rw [if_pos hend]
      dsimp only [total_nil]
      omega
    · rw [if_neg hend]
      have hslot : s.sendQueue[w.i + 1]? = some s.sendQueue[w.i + 1] :=
        getElem?_eq_getElem (by omega)
      have hset := total_set (slotHolds b) hslot none
      rw [hslot, Option.join_some]
      cases htaken : s.sendQueue[w.i + 1] with
      | none =>
        rw [htaken] at hset
        dsimp only [slotHolds] at hset ⊢
        omega
      | some pbuf =>
        have hwriter :=
          total_set (Writer.holds b) hw { phase := .writing, i := w.i + 1, pbuf := pbuf }
        have hholds : Writer.holds b { phase := .writing, i := w.i + 1, pbuf := pbuf } =
            if pbuf.id = b then 1 else 0 := by
          simp [Writer.holds]
        rw [htaken] at hset
        dsimp only [slotHolds] at hset ⊢
        omega

/-! ## Whole runs -/

inductive Does (sendQueueSize : Nat) (s : State) : State → Prop where
  | writeFrame (frame : Bytes) : Does sendQueueSize s (WriteFrame sendQueueSize s frame).2
  | closeAndClean : Does sendQueueSize s (CloseAndClean s)
  | write {n : Nat} {w : Writer} (hw : s.writers[n]? = some w) (hphase : w.phase = .writing) :
    Does sendQueueSize s (write s n w)
  | free {n : Nat} {w : Writer} (hw : s.writers[n]? = some w) (hphase : w.phase = .freeing) :
    Does sendQueueSize s (free s n w)
  | next {n : Nat} {w : Writer} (hw : s.writers[n]? = some w) (hphase : w.phase = .locking) :
    Does sendQueueSize s (next s n w)

variable {u : State} {e : Event}

theorem step_does (hstep : step sendQueueSize s e = some u) : Does sendQueueSize s u := by
  cases e with
  | writeFrame frame =>
    cases hstep
    exact .writeFrame frame
  | closeAndClean =>
    cases hstep
    exact .closeAndClean
  | writer n =>
    obtain ⟨w, hw, rfl⟩ := Option.map_eq_some_iff.1 hstep
    cases hphase : w.phase with
    | writing => exact .write hw hphase
    | freeing => exact .free hw hphase
    | locking => exact .next hw hphase

theorem step_ordered (h : Ordered s) (hstep : step sendQueueSize s e = some u) : Ordered u := by
  cases step_does hstep with
  | writeFrame frame => exact WriteFrame_ordered h frame
  | closeAndClean => exact CloseAndClean_ordered h
  | write hw hphase => exact write_ordered h hw hphase
  | free hw hphase => exact free_ordered h hw hphase
  | next hw hphase => exact next_ordered h hw hphase

theorem step_inv (h : Ordered s ∧ Accounted s) (hstep : step sendQueueSize s e = some u) :
    Ordered u ∧ Accounted u := by
  refine ⟨step_ordered h.1 hstep, ?_⟩
  cases step_does hstep with
  | writeFrame frame => exact WriteFrame_accounted h.2 frame
  | closeAndClean => exact CloseAndClean_accounted h.2
  | write hw hphase => exact write_accounted h.2 hw hphase
  | free hw hphase => exact free_accounted h.2 hw hphase
  | next hw hphase => exact next_accounted h.2 h.1 hw hphase

structure Fifo (s : State) : Prop where
  inOrder : s.written <+: s.enqueued
  alone : s.writers.length ≤ 1
  freedOnce : s.freed.Nodup
  /-- A buffer that waits in the queue or that a goroutine is to write or free has not been
  freed. -/
  live : ∀ pbuf, some pbuf ∈ s.sendQueue ∨ (∃ w ∈ s.writers, w.phase ≠ .locking ∧ w.pbuf = pbuf) →
    pbuf.id ∉ s.freed
  served : s.closed = false → s.sendQueue ≠ [] → s.writers.length = 1
  rest : s.sendQueue = [] → s.closed = false → s.written = s.enqueued

theorem Ordered.inOrder (h : Ordered s) : s.written <+: s.enqueued := by
  cases h with
  | idle hqueue hwriters hwritten => exact hwritten ▸ prefix_rfl
  | busy done batch w hopen hwriters henqueued hbuf hqueue hwritten =>
    rw [hwritten, henqueued]
    exact (prefix_append_right_inj done).2 (List.take_prefix _ _)
  | ended hclosed hwriters hwritten => exact (prefix_append _ _).trans hwritten

theorem Accounted.live (h : Accounted s) {pbuf : Buffer} (hfreed : pbuf.id ∈ s.freed) :
    some pbuf ∉ s.sendQueue ∧ ∀ w ∈ s.writers, w.phase ≠ .locking → w.pbuf ≠ pbuf := by
  have hb := h pbuf.id
  have hone : 0 < s.freed.count pbuf.id := count_pos_iff.2 hfreed
  have hle := allocated_le s.mallocs pbuf.id
  constructor
  · intro hslot
    have hpos := le_total_of_mem (slotHolds pbuf.id) hslot
    simp only [slotHolds, if_true] at hpos
    omega
  · rintro w hw hphase rfl
    have hpos := le_total_of_mem (Writer.holds w.pbuf.id) hw
    simp only [Writer.holds, hphase, ne_eq, not_false_eq_true, and_self, if_true] at hpos
    omega

/-- However calls of `writeFrame`, steps of the goroutines and `CloseAndClean` interleave, the
frames are written in the order in which they were queued, each once, by one goroutine at a time, no
buffer is freed twice, and the queue of an open connection is not left without a goroutine. -/
theorem sends_fifo_exactly_once (sendQueueSize : Nat) (s : State)
    (h : Reaches (step sendQueueSize) (fun _ _ => True) init s) : Fifo s := by
  obtain ⟨hordered, haccounted⟩ : Ordered s ∧ Accounted s :=
    h.invariant ⟨init_ordered, init_accounted⟩ fun _ _ _ ht _ hstep => step_inv ht hstep
  refine ⟨hordered.inOrder, hordered.alone, ?_, ?_, ?_, ?_⟩
  · refine nodup_iff_count.2 fun b => ?_
    have hb := haccounted b
    have hle := allocated_le s.mallocs b
    omega
  · rintro pbuf hheld hfreed
    obtain ⟨hslot, hwriter⟩ := haccounted.live hfreed
    rcases hheld with hmem | ⟨w, hw, hphase, hpbuf⟩
    · exact hslot hmem
    · exact hwriter w hw hphase hpbuf
  · intro hopen hne
    cases hordered with
    | idle hqueue => exact absurd hqueue hne
    | busy done batch w hopen hwriters => rw [hwriters]; rfl
    | ended hclosed => exact absurd hclosed (Bool.eq_false_iff.1 hopen)
  · intro hempty hopen
    cases hordered with
    | idle hqueue hwriters hwritten => exact hwritten
    | busy done batch w hopen hwriters henqueued hbuf hqueue => simp [hqueue] at hempty
    | ended hclosed => exact absurd hclosed (Bool.eq_false_iff.1 hopen)

/-- Three frames by two goroutines, a fourth one refused, and a close while the fifth one waits. -/
def exampleRun : List Event :=
  [.writeFrame [1], .writeFrame [2], .writer 0, .writer 0, .writer 0, .writer 0, .writer 0,
    .writer 0, .writeFrame [3], .writeFrame [4], .writeFrame [5], .writer 0, .closeAndClean,
    .writer 0, .writer 0]

theorem sends_fifo_exactly_once_closing :
    ∃ s, exampleRun.foldlM (guarded (step 2) fun _ _ => true) init = some s ∧
      s.written.map Buffer.frame = [[1], [2], [3]] ∧
      s.enqueued.map Buffer.frame = [[1], [2], [3], [4]] ∧ s.freed = [0, 1, 4, 3, 2] ∧
      s.writers = [] ∧ Fifo s := by
  obtain ⟨s, hrun, hwritten, henqueued, hfreed, hwriters⟩ :
      ∃ s, exampleRun.foldlM (guarded (step 2) fun _ _ => true) init = some s ∧
        s.written.map Buffer.frame = [[1], [2], [3]] ∧
        s.enqueued.map Buffer.frame = [[1], [2], [3], [4]] ∧ s.freed = [0, 1, 4, 3, 2] ∧
        s.writers = [] :=
    ⟨_, rfl, rfl, rfl, rfl, rfl⟩
  have hreach : Reaches (step 2) (fun _ _ => True) init s :=
    (Reaches.of_foldlM hrun).mono fun _ _ _ => trivial
  exact ⟨s, hrun, hwritten, henqueued, hfreed, hwriters, sends_fifo_exactly_once 2 s hreach⟩

end Nbio.Websocket.SendQueue
