import Nbio.Go.Slice
import Nbio.Websocket.Compression

/-!
# The bytes that `truncWriter` keeps back

`truncWriter` with its array of four bytes and its counter, over any writer.  `Write` fills the
array, and from then on shifts it by as many bytes as it is given, up to four.
-/

namespace Nbio.Websocket

open Nbio.Go List

variable {σ ε : Type}

/-- `truncWriter` without the writer below it. -/
structure TruncArray where
  n : Nat
  p : Bytes
  n_le : n ≤ 4
  length_p : p.length = 4

namespace TruncArray

/-- `&truncWriter{w: w}`. -/
def new : TruncArray := { n := 0, p := replicate 4 0, n_le := by decide, length_p := rfl }

/-- The first branch of `Write`: what fits is copied behind the `w.n` bytes. -/
def fill (w : TruncArray) (data : Bytes) : TruncArray where
  n := w.n + min (4 - w.n) data.length
  p := Slice.copyOver w.p w.n data
  n_le := by
    have := w.n_le
    omega
  length_p := (Slice.length_copyOver (by rw [w.length_p]; exact w.n_le)).trans w.length_p

/-- `copy(w.p[:], w.p[m:])` and `copy(w.p[len(w.p)-m:], tail)`. -/
def shift (w : TruncArray) (m : Nat) (tail : Bytes) : TruncArray where
  n := w.n
  p := Slice.copyOver (Slice.copyOver w.p 0 (w.p.drop m)) (4 - m) tail
  n_le := w.n_le
  length_p := by
    have hfirst : (Slice.copyOver w.p 0 (w.p.drop m)).length = 4 :=
      (Slice.length_copyOver (Nat.zero_le _)).trans w.length_p
    exact (Slice.length_copyOver (by rw [hfirst]; exact Nat.sub_le _ _)).trans hfirst

/-- `Write` over a writer: the values returned, and the two writers behind it. -/
def Write (write : σ → Bytes → (Nat × Option ε) × σ) (w : TruncArray) (s : σ) (data : Bytes) :
    (Nat × Option ε) × TruncArray × σ :=
  let n := if w.n < 4 then min (4 - w.n) data.length else 0
  let rest := data.drop n
  let full := if w.n < 4 then w.fill data else w
  if w.n < 4 ∧ rest = [] then ((n, none), full, s)
  else
    let m := min rest.length 4
    match write s (full.p.take m) with
    | ((nn, some err), s) => ((n + nn, some err), full, s)
    | ((_, none), s) =>
      let ((nn, err), s) := write s (rest.take (rest.length - m))
      ((n + nn, err), full.shift m (rest.drop (rest.length - m)), s)

def writes (write : σ → Bytes → (Nat × Option ε) × σ) (w : TruncArray) (s : σ)
    (slices : List Bytes) : TruncArray × σ :=
  slices.foldl (fun ws data => (ws.1.Write write ws.2 data).2) (w, s)

/-! ## The bytes kept back -/

/-- The bytes `w.p[:w.n]`. -/
def kept (w : TruncArray) : TruncWriter where
  p := w.p.take w.n
  length_le := by
    rw [length_take]
    exact (Nat.min_le_left _ _).trans w.n_le

theorem length_kept (w : TruncArray) : w.kept.p.length = w.n := by
  have := w.n_le
  have := w.length_p
  rw [kept, length_take]
  omega

theorem kept_fill (w : TruncArray) (data : Bytes) :
    (w.fill data).kept.p = w.kept.p ++ data.take (4 - w.n) := by
  have hle : w.n ≤ w.p.length := by rw [w.length_p]; exact w.n_le
  have htake := Slice.take_overwrite hle (data.take (w.p.length - w.n))
  rw [length_take, w.length_p] at htake
  change (Slice.overwrite w.p w.n (data.take (w.p.length - w.n))).take _ = w.p.take w.n ++ _
  rw [w.length_p]
  exact htake

theorem kept_shift {w : TruncArray} (hfull : w.n = 4) {m : Nat} {tail : Bytes} (hm : m ≤ 4)
    (htail : tail.length = m) : (w.shift m tail).kept.p = w.p.drop m ++ tail := by
  have hp := w.length_p
  have hlen : (w.p.drop m).length = 4 - m := by rw [length_drop, hp]
  have hfirst : Slice.copyOver w.p 0 (w.p.drop m) = w.p.drop m ++ w.p.drop (4 - m) := by
    rw [Slice.copyOver_eq (by omega), hlen, Nat.zero_add, take_zero, nil_append]
  have hsecond : Slice.copyOver (w.p.drop m ++ w.p.drop (4 - m)) (4 - m) tail =
      w.p.drop m ++ tail := by
    have hall : (w.p.drop m ++ w.p.drop (4 - m)).length = 4 - m + tail.length := by
      rw [length_append, hlen, length_drop]
      omega
    rw [Slice.copyOver_eq (Nat.le_of_eq hall.symm), take_left' hlen,
      drop_of_length_le (Nat.le_of_eq hall), append_nil]
  change (Slice.copyOver (Slice.copyOver w.p 0 (w.p.drop m)) (4 - m) tail).take w.n = _
  rw [hfirst, hsecond]
  exact take_of_length_le (by rw [length_append]; omega)

/-- `Write` keeps back what `TruncWriter.Write` keeps back, and makes the same writes below, as long
as these succeed. -/
theorem Write_simulates {write : σ → Bytes → (Nat × Option ε) × σ}
    (hwrite : ∀ s data, (write s data).1.2 = none) (w : TruncArray) (s : σ) (data : Bytes) :
    (w.Write write s data).1.2 = none ∧
      (w.Write write s data).2.1.kept.p = (w.kept.Write data).2.p ∧
      (w.Write write s data).2.2 = (w.kept.Write data).1.foldl (fun s x => (write s x).2) s := by
  have hcount : (if w.n < 4 then min (4 - w.n) data.length else 0) = min (4 - w.n) data.length := by
    split
    · rfl
    · omega
  have hfull : (if w.n < 4 then w.fill data else w).kept.p =
      w.kept.p ++ data.take (min (4 - w.n) data.length) := by
    split
    · rw [kept_fill, take_eq_take_min]
    · next hn => rw [show 4 - w.n = 0 by omega, Nat.zero_min, take_zero, append_nil]
  unfold Write TruncWriter.Write
  simp only [hcount, w.length_kept]
  generalize (if w.n < 4 then w.fill data else w) = full at hfull
  by_cases hshort : w.n < 4 ∧ data.drop (min (4 - w.n) data.length) = []
  · rw [if_pos hshort, if_pos hshort]
    exact ⟨rfl, hfull, rfl⟩
  rw [if_neg hshort, if_neg hshort]
  have hn : full.n = 4 := by
    have hle := w.n_le
    rw [← full.length_kept, hfull, length_append, w.length_kept, length_take]
    rw [drop_eq_nil_iff] at hshort
    omega
  have hall : full.kept.p = full.p :=
    take_of_length_le (by rw [full.length_p, hn])
  dsimp only
  rw [← hfull, hall]
  have hfirst := hwrite s (full.p.take (min (data.drop (min (4 - w.n) data.length)).length 4))
  rcases hw : write s (full.p.take (min (data.drop (min (4 - w.n) data.length)).length 4)) with
    ⟨⟨nn, err⟩, s'⟩
  rw [hw] at hfirst
  cases hfirst
  refine ⟨hwrite _ _, kept_shift hn (Nat.min_le_right _ _) ?_, ?_⟩
  · rw [length_drop]
    omega
  · simp only [foldl_cons, foldl_nil, hw]

/-- What `forwarded` reads from the writer below, together with the bytes kept back, is `data`;
fewer than four are kept back only as long as nothing has been forwarded. -/
structure Withholds (forwarded kept data : Bytes) : Prop where
  all : forwarded ++ kept = data
  first : kept.length < 4 → forwarded = []

theorem Withholds.length {forwarded kept data : Bytes} (h : Withholds forwarded kept data)
    (hle : kept.length ≤ 4) : kept.length = min 4 data.length := by
  obtain ⟨rfl, hfirst⟩ := h
  rw [length_append]
  by_cases hlt : kept.length < 4
  · rw [hfirst hlt, length_nil]
    omega
  · omega

section Accepting

variable {write : σ → Bytes → (Nat × Option ε) × σ} {forwarded : σ → Bytes}

structure Accepts (write : σ → Bytes → (Nat × Option ε) × σ) (forwarded : σ → Bytes) : Prop where
  returns : ∀ s data, (write s data).1 = (data.length, none)
  takes : ∀ s data, forwarded (write s data).2 = forwarded s ++ data

theorem Accepts.foldl (h : Accepts write forwarded) (s : σ) (slices : List Bytes) :
    forwarded (slices.foldl (fun s x => (write s x).2) s) = forwarded s ++ slices.flatten := by
  induction slices generalizing s with
  | nil => rw [foldl_nil, flatten_nil, append_nil]
  | cons x slices ih => rw [foldl_cons, ih, h.takes, flatten_cons, append_assoc]

theorem Write_withholds (h : Accepts write forwarded) {w : TruncArray} {s : σ} {sent : Bytes}
    (hw : Withholds (forwarded s) w.kept.p sent) (data : Bytes) :
    Withholds (forwarded (w.Write write s data).2.2) (w.Write write s data).2.1.kept.p
      (sent ++ data) := by
  have hnone : ∀ s data, (write s data).1.2 = none := fun s data => by rw [h.returns]
  obtain ⟨-, hkept, hbelow⟩ := w.Write_simulates hnone s data
  obtain ⟨hall, hfirst⟩ := w.kept.Write_spec data
  rw [hkept, hbelow, h.foldl]
  refine ⟨?_, fun hlt => ?_⟩
  · rw [append_assoc, hall, ← append_assoc, hw.all]
  · obtain ⟨hshort, hnil⟩ := hfirst hlt
    rw [hnil, flatten_nil, append_nil]
    exact hw.first hshort

theorem writes_withhold (h : Accepts write forwarded) {w : TruncArray} {s : σ} {sent : Bytes}
    (hw : Withholds (forwarded s) w.kept.p sent) (slices : List Bytes) :
    Withholds (forwarded (w.writes write s slices).2) (w.writes write s slices).1.kept.p
      (sent ++ slices.flatten) := by
  induction slices generalizing w s sent with
  | nil =>
    rw [flatten_nil, append_nil]
    exact hw
  | cons data slices ih =>
    rw [flatten_cons, ← append_assoc]
    exact ih (Write_withholds h hw data)

end Accepting

end TruncArray

/-- Over a writer that accepts everything, a `truncWriter` has forwarded all but the last four of
the bytes written to it, in order, and keeps back those. -/
theorem truncWriter_withholds {write : σ → Bytes → (Nat × Option ε) × σ} {forwarded : σ → Bytes}
    (h : TruncArray.Accepts write forwarded) (s : σ) (hs : forwarded s = []) (slices : List Bytes) :
    forwarded (TruncArray.new.writes write s slices).2 ++
        (TruncArray.new.writes write s slices).1.p.take (TruncArray.new.writes write s slices).1.n =
      slices.flatten ∧
    (TruncArray.new.writes write s slices).1.n = min 4 slices.flatten.length := by
  have hnew : TruncArray.Withholds (forwarded s) TruncArray.new.kept.p [] :=
    ⟨by rw [hs]; rfl, fun _ => hs⟩
  have hrun := TruncArray.writes_withhold h hnew slices
  generalize TruncArray.new.writes write s slices = r at hrun
  refine ⟨hrun.all, ?_⟩
  rw [← r.1.length_kept]
  exact hrun.length r.1.kept.length_le

/-- Slices of two, no, three and seven bytes, over a buffer. -/
theorem truncWriter_withholds_twelve :
    let slices := [ascii "ab", [], ascii "cde", ascii "fghijkl"]
    let write : Bytes → Bytes → (Nat × Option Unit) × Bytes :=
      fun buf data => ((data.length, none), buf ++ data)
    (TruncArray.new.writes write [] slices).2 ++
      (TruncArray.new.writes write [] slices).1.p.take 4 =
      ascii "abcdefghijkl" ∧ (TruncArray.new.writes write [] slices).1.p = ascii "ijkl" := by
  intro slices write
  have h : TruncArray.Accepts write id := ⟨fun _ _ => rfl, fun _ _ => rfl⟩
  exact ⟨(truncWriter_withholds h [] rfl slices).1, by decide⟩

end Nbio.Websocket
