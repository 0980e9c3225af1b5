import Nbio.Net.WriteStream

/-!
# `Writev` against `Write`

`Writev` of several slices and `Write` of their concatenation do the same as long as nothing is
sent by a `writev(2)` that stops short.  There `writev` queues the rest of the slice at the cut
only, and reports the count of the kernel, where `write` queues all that is left and reports
everything; and it passes `EAGAIN` on where `write` queues the data.
-/

namespace Nbio.Net

open Nbio.Go List

namespace Conn

variable {g : Engine} {k : Kernel} {c c' : Conn} {b : Bytes} {bs : List Bytes}

/-- The kernel takes bytes or asks to be tried again. -/
def Answers (k : Kernel) (c : Conn) : Prop :=
  ∀ e, k.write c.calls = .error e → e.isRetry = true

theorem sysWrite_error (hk : Answers k c) (b : Bytes) {e : Errno}
    (h : (c.sysWrite k b).1.2 = some e) : e.isRetry = true := by
  unfold sysWrite at h
  cases hw : k.write c.calls with
  | ok n => rw [hw] at h; cases h
  | error e' =>
    rw [hw] at h
    cases h
    exact hk e hw

theorem doWrite_error (hc : c.WF) (hk : Answers k c) (b : Bytes) {e : Errno}
    (h : (c.doWrite g k b).1.2 = some e) : e.isRetry = true := by
  rw [doWrite_stream hc.isStream] at h
  exact sysWrite_error hk b h

theorem write_takes (hc : c.WF) (hk : Answers k c) (hne : b ≠ [])
    (hno : c.overflow g b.length = false) :
    (c.write g k b).1 = ((b.length : Int), none) ∧ (c.write g k b).2.stream = c.stream ++ b := by
  have hspec := write_spec (g := g) (k := k) hc b
  have hcount : (c.write g k b).1 = ((b.length : Int), none) := by
    unfold write
    rw [if_neg hne, hno, if_neg Bool.false_ne_true]
    split
    · have herr : ∀ e, (c.doWrite g k b).1.2 = some e → e.isRetry = true :=
        fun e h => doWrite_error hc hk b h
      generalize c.doWrite g k b = r at herr
      obtain ⟨⟨n, err⟩, c₁⟩ := r
      cases err with
      | none => rfl
      | some e =>
        simp only [herr e rfl]
        rfl
    · rfl
  refine ⟨hcount, ?_⟩
  rcases hspec.2.2 with ⟨-, hstream⟩ | ⟨e, herr, -⟩
  · exact hstream
  · rw [hcount] at herr
    cases herr

theorem foldl_queues (hc : c.WF) (bs : List Bytes) :
    Queues c (bs.foldl (newToWriteBuf g) c) bs.flatten := by
  induction bs generalizing c with
  | nil =>
    exact ⟨id, rfl, rfl, fun _ => (append_nil _).symm⟩
  | cons b bs ih =>
    have hq := newToWriteBuf_queues (g := g) (c := c) b
    have hrest := ih (hq.wf hc)
    refine ⟨fun _ => hrest.wf (hq.wf hc), hrest.closed.trans hq.closed,
      hrest.accepted.trans hq.accepted, fun _ => ?_⟩
    rw [foldl_cons, hrest.pending (hq.wf hc), hq.pending hc, flatten_cons, append_assoc]

theorem writev_sends (hempty : c.writeList = []) (hne : bs.flatten ≠ [])
    (hno : c.overflow g bs.flatten.length = false) :
    (∀ n, k.write c.calls = .ok n → bs.flatten.length ≤ n →
      (c.writev g k bs).1 = ((bs.flatten.length : Int), none) ∧
        (c.writev g k bs).2.stream = c.stream ++ bs.flatten) ∧
    ((¬ ∃ n, k.write c.calls = .ok n ∧ bs.flatten.length ≤ n) →
      (c.writev g k bs).1 ≠ ((bs.flatten.length : Int), none)) := by
  have hpos : 0 < bs.flatten.length := length_pos_iff.2 hne
  unfold writev
  dsimp only
  rw [hno]
  simp only [Bool.false_eq_true, if_false, hempty, ne_eq, not_true_eq_false, sysWritev,
    if_neg hne, sysWrite]
  cases hw : k.write c.calls with
  | ok n =>
    refine ⟨fun m hm hle => ?_, fun hno' => ?_⟩
    · cases hm
      have hmin : min n bs.flatten.length = bs.flatten.length := Nat.min_eq_right hle
      simp only [hmin, take_length]
      rw [if_pos (by omega)]
      exact ⟨rfl, by simp [stream, pending, hempty]⟩
    · have hlt : ¬ bs.flatten.length ≤ n := fun hle => hno' ⟨n, rfl, hle⟩
      have hmin : min n bs.flatten.length = n := Nat.min_eq_left (by omega)
      simp only [hmin]
      intro heq
      split at heq
      · have := congrArg Prod.fst heq
        dsimp only at this
        omega
      · have := congrArg Prod.fst heq
        dsimp only at this
        omega
  | error e =>
    constructor
    · intro n hn
      cases hn
    · intro _ heq
      cases congrArg Prod.snd heq

theorem afterWrite_fst (r : Int × Option Err) : (c.afterWrite g k r).1 = r := by
  unfold afterWrite
  repeat' split
  all_goals rfl

theorem afterWrite_stream {r : Int × Option Err} (h : r.2 = none) :
    (c.afterWrite g k r).2.stream = c.stream := by
  unfold afterWrite
  rw [h]
  exact settle_registers.same.stream

theorem Writev_eq (hopen : c.closed = false) (hlen : bs.length ≠ 1) :
    c.Writev g k bs = (c.writev g k bs).2.afterWrite g k (c.writev g k bs).1 := by
  unfold Writev
  rw [hopen]
  rcases bs with _ | ⟨b, _ | ⟨b', bs⟩⟩
  · rfl
  · exact absurd rfl hlen
  · rfl

theorem Write_eq (hopen : c.closed = false) (b : Bytes) :
    c.Write g k b = (c.write g k b).2.afterWrite g k (c.write g k b).1 := by
  unfold Write
  rw [hopen, if_neg Bool.false_ne_true]

theorem agree_of_ok {n : Int} (hopen : c.closed = false) (hlen : bs.length ≠ 1)
    (hv : (c.writev g k bs).1 = (n, none)) (hw : (c.write g k b).1 = (n, none))
    (hstream : (c.writev g k bs).2.stream = (c.write g k b).2.stream) :
    (c.Writev g k bs).1 = (c.Write g k b).1 ∧
      (c.Writev g k bs).2.stream = (c.Write g k b).2.stream := by
  rw [Writev_eq hopen hlen, Write_eq hopen, hv, hw, afterWrite_stream rfl, afterWrite_stream rfl]
  exact ⟨rfl, hstream⟩

/-- With nothing to write `Write` does nothing, and `Writev` nothing that shows unless the limit
has been passed already. -/
theorem agree_iff_of_nothing (hc : c.WF) (hopen : c.closed = false) (hlen : bs.length ≠ 1)
    (h : bs.flatten = []) :
    ((c.Writev g k bs).1 = (c.Write g k bs.flatten).1 ∧
      (c.Writev g k bs).2.stream = (c.Write g k bs.flatten).2.stream) ↔
    c.overflow g 0 = false := by
  have hw : c.write g k bs.flatten = ((0, none), c) := by rw [write, if_pos h]
  constructor
  · rintro ⟨hcount, -⟩
    rw [Writev_eq hopen hlen, Write_eq hopen, hw] at hcount
    by_contra hover
    rw [Bool.not_eq_false] at hover
    have hv : (c.writev g k bs).1 = (-1, some errOverflow) := by
      unfold writev
      rw [h, length_nil, if_pos hover]
    rw [hv] at hcount
    cases hcount
  · intro hno
    have hv : (c.writev g k bs).1 = (0, none) ∧ (c.writev g k bs).2.stream = c.stream := by
      unfold writev
      dsimp only
      rw [h, length_nil, hno, if_neg Bool.false_ne_true]
      split
      · have hq := foldl_queues (g := g) hc bs
        rw [h] at hq
        exact ⟨rfl, by rw [hq.stream hc, append_nil]⟩
      · rw [sysWritev, if_pos h]
        exact ⟨rfl, rfl⟩
    exact agree_of_ok hopen hlen hv.1 (by rw [hw]) (by rw [hw, hv.2])

/-- `Writev` of any number of slices but one and `Write` of their concatenation report the same
and leave the same stream exactly when there is nothing to write (and the limit has not been
passed), or the data overflows, or data is pending already, or the kernel takes everything. -/
theorem Writev_eq_Write_iff (bs : List Bytes) (hc : c.WF) (hopen : c.closed = false)
    (hlen : bs.length ≠ 1) (hk : Answers k c) :
    ((c.Writev g k bs).1 = (c.Write g k bs.flatten).1 ∧
      (c.Writev g k bs).2.stream = (c.Write g k bs.flatten).2.stream) ↔
    (bs.flatten = [] ∧ c.overflow g 0 = false) ∨
      (bs.flatten ≠ [] ∧ (c.overflow g bs.flatten.length = true ∨ c.writeList ≠ [] ∨
        ∃ n, k.write c.calls = .ok n ∧ bs.flatten.length ≤ n)) := by
  by_cases hne : bs.flatten = []
  · rw [agree_iff_of_nothing hc hopen hlen hne]
    simp [hne]
  simp only [hne, false_and, ne_eq, not_false_eq_true, true_and]
  cases ho : c.overflow g bs.flatten.length with
  | true =>
    have hv : c.writev g k bs = ((-1, some errOverflow), c) := if_pos ho
    have hw : c.write g k bs.flatten = ((-1, some errOverflow), c) := by
      rw [write, if_neg hne, if_pos ho]
    rw [Writev_eq hopen hlen, Write_eq hopen, hv, hw]
    simp
  | false =>
    obtain ⟨hw, hws⟩ := write_takes hc hk hne ho
    simp only [Bool.false_eq_true, false_or]
    by_cases hempty : c.writeList = []
    · obtain ⟨hall, hshort⟩ := writev_sends hempty hne ho
      simp only [hempty, not_true_eq_false, false_or]
      constructor
      · rintro ⟨hcount, -⟩
        rw [Writev_eq hopen hlen, Write_eq hopen, afterWrite_fst, hw] at hcount
        by_contra hno
        exact hshort hno hcount
      · rintro ⟨n, hn, hle⟩
        obtain ⟨hv, hs⟩ := hall n hn hle
        exact agree_of_ok hopen hlen hv hw (hs.trans hws.symm)
    · have hv : c.writev g k bs =
          (((bs.flatten.length : Int), none), bs.foldl (newToWriteBuf g) c) := by
        unfold writev
        dsimp only
        rw [ho, if_neg Bool.false_ne_true, if_pos hempty]
      have hs := (foldl_queues (g := g) hc bs).stream hc
      simp only [hempty, not_false_eq_true, true_or, iff_true]
      exact agree_of_ok hopen hlen (congrArg Prod.fst hv) hw (by rw [hv, hs, hws])

theorem Writev_eq_Write_iff_two_slices :
    ((newConn 7 .tcp).Writev plainEngine shortKernel [ascii "a", ascii "bc"]).1 =
      ((newConn 7 .tcp).Write plainEngine shortKernel (ascii "abc")).1 ∧
    ((newConn 7 .tcp).Writev plainEngine shortKernel [ascii "a", ascii "bc"]).2.stream =
      ((newConn 7 .tcp).Write plainEngine shortKernel (ascii "abc")).2.stream :=
  (Writev_eq_Write_iff [ascii "a", ascii "bc"] ⟨rfl, by simp [newConn]⟩ rfl (by decide)
    (by simp [Answers, newConn, shortKernel])).2 (.inr ⟨by decide, .inr (.inr ⟨3, rfl, by decide⟩)⟩)

/-- The kernel takes three bytes of five in three slices: the last slice is dropped. -/
theorem Writev_drops_slices :
    let v := (newConn 7 .tcp).Writev plainEngine shortKernel [ascii "ab", ascii "cd", ascii "e"]
    let w := (newConn 7 .tcp).Write plainEngine shortKernel (ascii "abcde")
    v.1 = (3, none) ∧ v.2.stream = ascii "abcd" ∧ w.1 = (5, none) ∧
      w.2.stream = ascii "abcde" := by
  decide

end Conn

end Nbio.Net
