import Nbio.Websocket.SendQueue

/-!
# When the send queue is full

`writeFrame` refuses a frame when the queue has `sendQueueSize` slots.  A slot is not given back
when the goroutine has taken its buffer: the queue is only cut back when the goroutine has reached
its end.  So the frames that were written since the queue was last empty still count, and a refusal
means that the queue is full of unsent frames exactly if there are none
(`refuses_only_when_full_iff`).

The write of the goroutine may also fail here.  It then frees its buffer and ends, and what is
queued stays where it is until `CloseAndClean`.
-/

namespace Nbio.Websocket.SendQueue

open Nbio.Go Nbio.Lib List Option

/-- A state with the number of frames that were written since the queue was last empty. -/
structure Monitored where
  state : State
  wrote : Nat
deriving DecidableEq, Repr

def Monitored.init : Monitored := { state := SendQueue.init, wrote := 0 }

inductive MonitoredEvent where
  | step (e : Event)
  /-- The write of goroutine `n` fails; it frees the buffer and returns behind `CloseWithError`. -/
  | fail (n : Nat)
deriving DecidableEq, Repr

def State.unsent (s : State) : List Buffer := s.enqueued.drop s.written.length

def failWrite (s : State) (n : Nat) (w : Writer) : State :=
  { s with writers := s.writers.eraseIdx n, freed := s.freed ++ [w.pbuf.id] }

def Monitored.count (m : Monitored) (u : State) : Nat :=
  if u.sendQueue = [] then 0 else m.wrote + (u.written.length - m.state.written.length)

def Monitored.step (sendQueueSize : Nat) (m : Monitored) : MonitoredEvent → Option Monitored
  | .step e => (SendQueue.step sendQueueSize m.state e).map fun u =>
    { state := u, wrote := m.count u }
  | .fail n =>
    match m.state.writers[n]? with
    | some w =>
      if w.phase = .writing then
        some { state := failWrite m.state n w, wrote := m.count (failWrite m.state n w) }
      else none
    | none => none

variable {s u : State} {m m' : Monitored} {n : Nat} {w : Writer} {sendQueueSize : Nat}

/-! ## Frames are written in order, also if a write fails -/

/-- A write has failed: nobody will write what is queued. -/
structure Stuck (s : State) : Prop where
  writers : s.writers = []
  queue : s.sendQueue ≠ []
  inOrder : s.written <+: s.enqueued

theorem Stuck.WriteFrame (h : Stuck s) (frame : Bytes) :
    Stuck (WriteFrame sendQueueSize s frame).2 := by
  unfold SendQueue.WriteFrame
  split
  · exact h
  · unfold writeFrame
    dsimp only
    split
    · exact ⟨h.writers, h.queue, h.inOrder⟩
    · have hlong : (s.sendQueue ++ [some (Buffer.mk s.mallocs frame)]).length ≠ 1 := by
        have hpos := length_pos_iff.2 h.queue
        rw [length_append, length_singleton]
        omega
      rw [if_neg hlong]
      exact ⟨h.writers, by simp, h.inOrder.trans (prefix_append _ _)⟩

theorem Stuck.CloseAndClean (h : Stuck s) : Stuck (CloseAndClean s) := by
  unfold SendQueue.CloseAndClean
  split
  · exact h
  · exact ⟨h.writers, by simpa using h.queue, h.inOrder⟩

variable {e : Event}

theorem Stuck.step (h : Stuck s) (hstep : step sendQueueSize s e = some u) : Stuck u := by
  cases e with
  | writeFrame frame =>
    cases hstep
    exact h.WriteFrame frame
  | closeAndClean =>
    cases hstep
    exact h.CloseAndClean
  | writer n =>
    rw [SendQueue.step, h.writers] at hstep
    cases hstep

theorem failWrite_ordered (h : Ordered s) (hw : s.writers[n]? = some w) :
    Ordered (failWrite s n w) ∨ Stuck (failWrite s n w) := by
  obtain ⟨rfl, hsingle⟩ := h.writer hw
  have hnone : (failWrite s 0 w).writers = [] := by simp [failWrite, hsingle]
  rcases h.at_work hsingle with ⟨done, batch, -, -, -, hqueue, -⟩ | ⟨hclosed, hwritten⟩
  · refine .inr ⟨hnone, ?_, h.inOrder⟩
    change s.sendQueue ≠ []
    simp [hqueue]
  · refine .inl (.ended hclosed (by simp [hnone]) ?_)
    rw [hnone]
    simpa [failWrite] using (prefix_append _ _).trans hwritten

/-! ## The count -/

/-- What the count says of an open connection. -/
structure Counted (sendQueueSize : Nat) (m : Monitored) : Prop where
  alone : m.state.writers.length ≤ 1
  count : m.state.enqueued.length + m.wrote = m.state.written.length + m.state.sendQueue.length
  empty : m.state.sendQueue = [] → m.wrote = 0 ∧ m.state.writers = []
  writer : ∀ w ∈ m.state.writers, w.i < m.state.sendQueue.length ∧ m.wrote = w.wrote
  bound : 0 < sendQueueSize → m.state.sendQueue.length ≤ sendQueueSize

theorem init_counted (sendQueueSize : Nat) : Counted sendQueueSize .init :=
  ⟨by decide, rfl, fun _ => ⟨rfl, rfl⟩, by simp [Monitored.init, SendQueue.init],
    fun _ => Nat.zero_le _⟩

theorem Counted.single (h : Counted sendQueueSize m) (hw : m.state.writers[n]? = some w) :
    n = 0 ∧ m.state.writers = [w] ∧ w.i < m.state.sendQueue.length ∧ m.wrote = w.wrote := by
  obtain ⟨hn, hwriters⟩ := single_writer h.alone hw
  exact ⟨hn, hwriters, h.writer w (by simp [hwriters])⟩

theorem Counted.count_eq (h : Counted sendQueueSize m)
    (hqueue : u.sendQueue = [] → m.state.sendQueue = [])
    (hwritten : u.written = m.state.written) : m.count u = m.wrote := by
  unfold Monitored.count
  split
  · next hempty => exact (h.empty (hqueue hempty)).1.symm
  · rw [hwritten]
    omega

theorem WriteFrame_counted (h : Counted sendQueueSize m) (frame : Bytes) :
    let u := (WriteFrame sendQueueSize m.state frame).2
    Counted sendQueueSize { state := u, wrote := m.count u } := by
  intro u
  have hcount : m.count u = m.wrote := by
    refine h.count_eq ?_ ?_
    · intro hempty
      simp only [u, SendQueue.WriteFrame, writeFrame] at hempty
      split at hempty
      · exact hempty
      · split at hempty
        · exact hempty
        · split at hempty
          · simp at hempty
          · simp at hempty
    · simp only [u, SendQueue.WriteFrame, writeFrame]
      split
      · rfl
      · split
        · rfl
        · split <;> rfl
  rw [hcount]
  simp only [u, SendQueue.WriteFrame, writeFrame]
  split
  · exact h
  · split
    · exact ⟨h.alone, h.count, h.empty, h.writer, h.bound⟩
    · next hroom =>
      have hcounted := h.count
      split
      · next hfirst =>
        -- the first frame of a batch starts a goroutine
        have hempty : m.state.sendQueue = [] := by
          rw [length_append, length_singleton] at hfirst
          exact length_eq_zero_iff.1 (by omega)
        obtain ⟨hwrote, hwriters⟩ := h.empty hempty
        rw [hempty, length_nil] at hcounted
        refine ⟨by simp [hwriters], ?_, by simp, ?_, ?_⟩
        · simp only [length_append, length_set, length_singleton, hempty, length_nil]
          omega
        · intro w hw
          obtain rfl : w = _ := by simpa [hwriters] using hw
          exact ⟨by simp, by simp [Writer.wrote, hwrote]⟩
        · simp only [length_set]
          omega
      · refine ⟨h.alone, ?_, by simp, ?_, ?_⟩
        · simp only [length_append, length_singleton]
          omega
        · intro w hw
          obtain ⟨hlt, hwrote⟩ := h.writer w hw
          refine ⟨?_, hwrote⟩
          simp only [length_append]
          omega
        · simp only [length_append, length_singleton]
          omega

section

variable (h : Counted sendQueueSize m) (hw : m.state.writers[n]? = some w)

include h hw

theorem write_counted (hphase : w.phase = .writing) :
    Counted sendQueueSize { state := write m.state n w, wrote := m.count (write m.state n w) } := by
  obtain ⟨rfl, hsingle, hlt, hwrote⟩ := h.single hw
  have hne : m.state.sendQueue ≠ [] := length_pos_iff.1 (by omega)
  have hcount : m.count (write m.state 0 w) = m.wrote + 1 := by
    have hkeep : (write m.state 0 w).sendQueue ≠ [] := hne
    rw [Monitored.count, if_neg hkeep]
    simp [write]
  have hsum := h.count
  rw [Writer.wrote, if_pos hphase] at hwrote
  rw [hcount]
  refine ⟨by simp [write, hsingle], ?_, fun hempty => absurd hempty hne, ?_, h.bound⟩
  · simp only [write, length_append, length_singleton]
    omega
  · intro w' hw'
    obtain rfl : w' = { w with phase := .freeing } := by simpa [write, hsingle] using hw'
    exact ⟨hlt, by simp [Writer.wrote, hwrote]⟩

theorem free_counted (hphase : w.phase = .freeing) :
    Counted sendQueueSize { state := free m.state n w, wrote := m.count (free m.state n w) } := by
  obtain ⟨rfl, hsingle, hlt, hwrote⟩ := h.single hw
  have hne : m.state.sendQueue ≠ [] := length_pos_iff.1 (by omega)
  have hcount : m.count (free m.state 0 w) = m.wrote := h.count_eq (fun hempty => hempty) rfl
  rw [hcount]
  refine ⟨by simp [free, hsingle], h.count, fun hempty => absurd hempty hne, ?_, h.bound⟩
  intro w' hw'
  obtain rfl : w' = { w with phase := .locking } := by simpa [free, hsingle] using hw'
  exact ⟨hlt, by simpa [Writer.wrote, hphase] using hwrote⟩

theorem next_counted (hphase : w.phase = .locking) (hopen : m.state.closed = false) :
    Counted sendQueueSize { state := next m.state n w, wrote := m.count (next m.state n w) } := by
  obtain ⟨rfl, hsingle, hlt, hwrote⟩ := h.single hw
  have hsum := h.count
  rw [Writer.wrote, if_neg (by rw [hphase]; decide)] at hwrote
  unfold next
  rw [if_neg (Bool.eq_false_iff.1 hopen)]
  by_cases hend : m.state.sendQueue.length ≤ w.i + 1
  · rw [if_pos hend, Monitored.count, if_pos rfl]
    refine ⟨by simp [hsingle], ?_, fun _ => ⟨rfl, by simp [hsingle]⟩, by simp [hsingle],
      fun _ => Nat.zero_le _⟩
    simp only [length_nil]
    omega
  · rw [if_neg hend]
    have hne : m.state.sendQueue.set (w.i + 1) none ≠ [] := by
      rw [← length_pos_iff, length_set]
      omega
    cases m.state.sendQueue[w.i + 1]?.join with
    | none =>
      rw [h.count_eq (by exact fun hempty => absurd hempty hne) (by rfl)]
      exact ⟨by simp [hsingle], by simpa using hsum,
        fun hempty => absurd hempty hne, by simp [hsingle], by simpa using h.bound⟩
    | some pbuf =>
      rw [h.count_eq (by exact fun hempty => absurd hempty hne) (by rfl)]
      refine ⟨by simp [hsingle], by simpa using hsum, fun hempty => absurd hempty hne,
        ?_, by simpa using h.bound⟩
      intro w' hw'
      obtain rfl : w' = { phase := .writing, i := w.i + 1, pbuf := pbuf } := by
        simpa [hsingle] using hw'
      refine ⟨?_, by simpa [Writer.wrote] using hwrote⟩
      simp only [length_set]
      omega

theorem failWrite_counted :
    Counted sendQueueSize
      { state := failWrite m.state n w, wrote := m.count (failWrite m.state n w) } := by
  obtain ⟨rfl, hsingle, hlt, -⟩ := h.single hw
  have hne : m.state.sendQueue ≠ [] := length_pos_iff.1 (by omega)
  rw [h.count_eq (by exact fun hempty => hempty) (by rfl)]
  exact ⟨by simp [failWrite, hsingle], h.count,
    fun hempty => absurd hempty hne, by simp [failWrite, hsingle], h.bound⟩

end

/-! ## Whole runs -/

structure Inv (sendQueueSize : Nat) (m : Monitored) : Prop where
  ordered : Ordered m.state ∨ Stuck m.state
  counted : m.state.closed = false → Counted sendQueueSize m

theorem Inv.inOrder (h : Inv sendQueueSize m) : m.state.written <+: m.state.enqueued := by
  rcases h.ordered with hordered | hstuck
  · exact hordered.inOrder
  · exact hstuck.inOrder

theorem open_of_step (hstep : step sendQueueSize s e = some u) (hopen : u.closed = false) :
    s.closed = false := by
  cases step_does hstep with
  | writeFrame frame =>
    simp only [WriteFrame] at hopen
    split at hopen
    · exact hopen
    · next hclosed => exact Bool.eq_false_iff.2 hclosed
  | closeAndClean =>
    unfold CloseAndClean at hopen
    split at hopen
    · exact hopen
    · cases hopen
  | write hw hphase => exact hopen
  | free hw hphase => exact hopen
  | next hw hphase =>
    dsimp only [next] at hopen
    split at hopen
    · exact hopen
    · next hclosed => exact Bool.eq_false_iff.2 hclosed

theorem step_counted (h : Counted sendQueueSize m) (hopen : m.state.closed = false)
    (hstep : step sendQueueSize m.state e = some u) (hopen' : u.closed = false) :
    Counted sendQueueSize { state := u, wrote := m.count u } := by
  cases step_does hstep with
  | writeFrame frame => exact WriteFrame_counted h frame
  | closeAndClean => simp [CloseAndClean, hopen] at hopen'
  | write hw hphase => exact write_counted h hw hphase
  | free hw hphase => exact free_counted h hw hphase
  | next hw hphase => exact next_counted h hw hphase hopen

theorem Inv.step {e : MonitoredEvent} (h : Inv sendQueueSize m)
    (hstep : m.step sendQueueSize e = some m') : Inv sendQueueSize m' := by
  cases e with
  | step e =>
    obtain ⟨u, hu, rfl⟩ := map_eq_some_iff.1 hstep
    refine ⟨h.ordered.imp (step_ordered · hu) (Stuck.step · hu), fun hopen => ?_⟩
    have hbefore := open_of_step hu hopen
    exact step_counted (h.counted hbefore) hbefore hu hopen
  | fail n =>
    rw [Monitored.step] at hstep
    split at hstep
    · next w hw =>
      split at hstep
      · cases hstep
        refine ⟨?_, fun hopen => failWrite_counted (h.counted hopen) hw⟩
        rcases h.ordered with hordered | hstuck
        · exact failWrite_ordered hordered hw
        · rw [hstuck.writers] at hw
          cases hw
      · cases hstep
    · cases hstep

/-- However calls of `writeFrame`, steps of the goroutine, failing writes and `CloseAndClean`
interleave: a frame is refused with `sendQueueSize` frames unsent exactly if nothing was written
since the queue was last empty. -/
theorem refuses_only_when_full_iff {sendQueueSize : Nat} (hsize : 0 < sendQueueSize) {m : Monitored}
    (h : Reaches (Monitored.step sendQueueSize) (fun _ _ => True) .init m) {frame : Bytes}
    (hfull : (WriteFrame sendQueueSize m.state frame).1 = some .messageSendQuqueIsFull) :
    m.state.written ++ m.state.unsent = m.state.enqueued ∧
      (sendQueueSize ≤ m.state.unsent.length ↔ m.wrote = 0) := by
  have hinv : Inv sendQueueSize m :=
    h.invariant ⟨.inl init_ordered, fun _ => init_counted sendQueueSize⟩ fun _ _ _ ht _ hstep =>
      ht.step hstep
  obtain ⟨rest, hrest⟩ := hinv.inOrder
  have hunsent : m.state.unsent = rest := by rw [State.unsent, ← hrest, drop_left]
  rw [hunsent]
  refine ⟨hrest, ?_⟩
  unfold WriteFrame at hfull
  split at hfull
  · cases hfull
  · next hclosed =>
    have hcounted := hinv.counted (Bool.eq_false_iff.2 hclosed)
    have hsum := hcounted.count
    have hbound := hcounted.bound hsize
    rw [← hrest, length_append] at hsum
    have hlong : sendQueueSize ≤ m.state.sendQueue.length := by
      unfold writeFrame at hfull
      dsimp only at hfull
      split at hfull
      · next hcond => exact hcond.2
      · split at hfull
        · cases hfull
        · cases hfull
    omega

/-- Two frames are queued before the goroutine has run, and one is turned away. -/
theorem refuses_only_when_full_iff_unwritten :
    ∃ m, [MonitoredEvent.step (.writeFrame [1]), .step (.writeFrame [2])].foldlM
        (guarded (Monitored.step 2) fun _ _ => true) .init = some m ∧
      (WriteFrame 2 m.state [3]).1 = some .messageSendQuqueIsFull ∧ 2 ≤ m.state.unsent.length := by
  obtain ⟨m, hrun, hfull, hwrote⟩ :
      ∃ m, [MonitoredEvent.step (.writeFrame [1]), .step (.writeFrame [2])].foldlM
          (guarded (Monitored.step 2) fun _ _ => true) .init = some m ∧
        (WriteFrame 2 m.state [3]).1 = some .messageSendQuqueIsFull ∧ m.wrote = 0 :=
    ⟨_, rfl, rfl, rfl⟩
  have hreach : Reaches (Monitored.step 2) (fun _ _ => True) .init m :=
    (Reaches.of_foldlM hrun).mono fun _ _ _ => trivial
  exact ⟨m, hrun, hfull, ((refuses_only_when_full_iff (by decide) hreach hfull).2).2 hwrote⟩

/-- Both frames of a queue for two have been written, and one more is turned away. -/
theorem refuses_when_all_written :
    ∃ m, [MonitoredEvent.step (.writeFrame [1]), .step (.writeFrame [2]), .step (.writer 0),
        .step (.writer 0), .step (.writer 0), .step (.writer 0)].foldlM (Monitored.step 2) .init =
        some m ∧
      m.state.closed = false ∧ m.state.written.map Buffer.frame = [[1], [2]] ∧ m.state.unsent = [] ∧
      (WriteFrame 2 m.state [3]).1 = some .messageSendQuqueIsFull :=
  ⟨_, rfl, rfl, rfl, rfl, rfl⟩

end Nbio.Websocket.SendQueue
