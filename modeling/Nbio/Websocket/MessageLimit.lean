import Nbio.Websocket.Compression

/-!
# The limit on decompressed messages

`readAll` asks for buffers that are no longer than `MessageLengthLimit`, but it reads to their
capacity, and it turns a message away when a buffer of at least this length is full and the reader
has not said that it is at its end.  So the length that decides is the capacity of the last buffer,
which is the first one in the row that is not below the limit (`finalCap`), and for a message of
exactly this length it depends on whether the reader reports the end with the last bytes or by
itself.
-/

namespace Nbio.Websocket

open Nbio.Go List Option

variable {σ : Type}

/-- The first capacity that is not below the limit, from `cap` on. -/
def capFrom (o : Options) (capacity : Nat → Nat) : Nat → Nat → Nat
  | 0, cap => cap
  | fuel + 1, cap =>
    if o.messageLengthLimit ≤ cap then cap else capFrom o capacity fuel (nextCap o capacity cap)

def firstCap (o : Options) (capacity : Nat → Nat) (size : Nat) : Nat :=
  capacity (if 0 < o.messageLengthLimit ∧ o.messageLengthLimit < size then
    o.messageLengthLimit.toNat else size)

def finalCap (o : Options) (capacity : Nat → Nat) (size : Nat) : Nat :=
  capFrom o capacity o.messageLengthLimit.toNat (firstCap o capacity size)

/-- How a reader with `data` left reports the end: with the last piece (`atLast`), or by itself.  A
read into no bytes returns nothing, or the end if there is nothing left. -/
structure Reports (read : σ → Nat → Bytes × Option ReadErr × σ) (atLast : Bool) (s : σ)
    (data : Bytes) : Prop where
  empty : read s 0 = ([], none, s) ∨ data = [] ∧ (read s 0).1 = [] ∧ (read s 0).2.1 = some .eof
  ended : ∀ n e, 0 < n → (read s n).2.1 = some e → atLast = true ∨ data = []
  last : ∀ n, 0 < n → atLast = true → (read s n).1 = data → data ≠ [] →
    (read s n).2.1 = some .eof

/-- A reader that delivers `data` in pieces and then reports the end. -/
abbrev Delivers (read : σ → Nat → Bytes × Option ReadErr × σ) (atLast : Bool) : σ → Bytes → Prop :=
  Yields read (Reports read atLast)

def Returns (o : Options) (capacity : Nat → Nat)
    (read : σ → Nat → Bytes × Option ReadErr × σ) (s : σ)
    (size : Nat) (r : Except Err Bytes) : Prop :=
  ∃ least, ∀ fuel, least ≤ fuel → readAll o capacity read fuel s size = some r

def RightlyLimited (o : Options) (capacity : Nat → Nat)
    (read : σ → Nat → Bytes × Option ReadErr × σ)
    (s : σ) (size : Nat) (data : Bytes) : Prop :=
  (data.length ≤ o.messageLengthLimit → Returns o capacity read s size (.ok data)) ∧
    (o.messageLengthLimit < data.length → Returns o capacity read s size (.error .messageTooLarge))

/-! ## The buffers -/

/-- The capacities from `cap` on end at `last`, the first one that is not below the limit. -/
inductive Grown (o : Options) (capacity : Nat → Nat) (last : Nat) : Nat → Prop where
  | done (h : o.messageLengthLimit ≤ last) : Grown o capacity last last
  | more {cap : Nat} (h : (cap : Int) < o.messageLengthLimit)
    (hmore : Grown o capacity last (nextCap o capacity cap)) : Grown o capacity last cap

variable {o : Options} {capacity : Nat → Nat} {read : σ → Nat → Bytes × Option ReadErr × σ}

variable {cap : Nat}

theorem Grown.le {last : Nat} (hcapacity : ∀ n, n ≤ capacity n) (h : Grown o capacity last cap)
    (hpos : 0 < cap) : cap ≤ last := by
  induction h with
  | done _ => exact Nat.le_refl _
  | more hlt _ ih =>
    have hnext := lt_nextCap hcapacity hpos (.inr hlt)
    omega

theorem grown_capFrom (hcapacity : ∀ n, n ≤ capacity n) {fuel : Nat} (hpos : 0 < cap)
    (hfuel : o.messageLengthLimit ≤ cap + fuel) :
    Grown o capacity (capFrom o capacity fuel cap) cap := by
  induction fuel generalizing cap with
  | zero => exact .done (by rw [capFrom]; omega)
  | succ fuel ih =>
    rw [capFrom]
    split
    · next hle => exact .done hle
    · next hlt =>
      have hnext := lt_nextCap hcapacity hpos (.inr (Int.not_le.1 hlt))
      exact .more (Int.not_le.1 hlt) (ih (by omega) (by omega))

theorem grown_finalCap (hcapacity : ∀ n, n ≤ capacity n) {size : Nat}
    (hpos : 0 < firstCap o capacity size) :
    Grown o capacity (finalCap o capacity size) (firstCap o capacity size) :=
  grown_capFrom hcapacity hpos (by omega)

/-! ## The loop -/

theorem tooLarge_iff (hlimit : 0 < o.messageLengthLimit) (l : Nat) :
    isMessageTooLarge o (l + 1) = true ↔ o.messageLengthLimit ≤ l := by
  simp only [isMessageTooLarge, Bool.and_eq_true, decide_eq_true_eq]
  omega

/-- What the loop returns for a message: the message, if it ends before the last buffer is full. -/
def verdict (last : Nat) (atLast : Bool) (data : Bytes) : Except Err Bytes :=
  if data.length < last ∨ data.length = last ∧ atLast = true then .ok data
  else .error .messageTooLarge

theorem readLoop_verdict (hlimit : 0 < o.messageLengthLimit) (hcapacity : ∀ n, n ≤ capacity n)
    {atLast : Bool} {last : Nat} {s : σ} {data : Bytes} (h : Delivers read atLast s data)
    {pbuf : Bytes} (hcap : pbuf.length < cap) (hgrown : Grown o capacity last cap) :
    LoopReturns o capacity read s pbuf cap (verdict last atLast (pbuf ++ data)) := by
  induction h generalizing pbuf cap with
  | @intro s data hreports hlength hpiece hmore hend ih =>
    have hn : 0 < cap - pbuf.length := by omega
    have hle := hlength (cap - pbuf.length)
    have hpiece := hpiece _ hn
    have hmore := ih _ hn
    have hend := fun e => hend _ e hn
    have hended := fun e => hreports.ended _ e hn
    have hlast := hreports.last _ hn
    have hcaplast := hgrown.le hcapacity (by omega)
    generalize hread : read s (cap - pbuf.length) = r at hle hpiece hmore hend hended hlast
    obtain ⟨bytes, err, s'⟩ := r
    dsimp only at hle hpiece hmore hend hended hlast
    have hlen := hpiece.length_le
    cases err with
    | some e =>
      have hatLast := hended e rfl
      obtain ⟨rfl, rfl⟩ := hend e rfl
      have hfits : (pbuf ++ bytes).length < last ∨
          (pbuf ++ bytes).length = last ∧ atLast = true := by
        rw [length_append]
        rcases hatLast with hatLast | hnil
        · by_cases hlt : pbuf.length + bytes.length < last
          · exact .inl hlt
          · exact .inr ⟨by omega, hatLast⟩
        · rw [hnil, length_nil]
          exact .inl (by omega)
      rw [verdict, if_pos hfits]
      exact .at_once fun fuel => by rw [readLoop, hread]
    | none =>
      by_cases hbig : (pbuf ++ bytes).length = cap ∧ o.messageLengthLimit ≤ cap
      · -- the last buffer is full, and the reader has not reported the end
        have hcap' : cap = last := by
          cases hgrown with
          | done _ => rfl
          | more hlt _ => omega
        have hover : ¬ ((pbuf ++ data).length < last ∨
            (pbuf ++ data).length = last ∧ atLast = true) := by
          have hfull := hbig.1
          rw [length_append] at hfull ⊢
          rintro (hlt | ⟨heq, hatLast⟩)
          · omega
          · have hall : bytes = data := hpiece.eq_of_length (by omega)
            have hne : data ≠ [] := length_pos_iff.1 (by omega)
            cases hlast hatLast hall hne
        rw [verdict, if_neg hover]
        refine .at_once fun fuel => ?_
        rw [readLoop, hread]
        dsimp only
        rw [if_pos hbig.1, hbig.1, if_pos ((tooLarge_iff hlimit cap).2 hbig.2)]
      · obtain ⟨cap', hcap', hnext, hloop⟩ := readLoop_goes_on hcapacity hcap hread hle
          fun hfull => .inr (Int.not_le.1 fun hle => hbig ⟨hfull, hle⟩)
        have hgrown' : Grown o capacity last cap' := by
          rcases hnext with rfl | ⟨hfull, rfl⟩
          · exact hgrown
          · cases hgrown with
            | done hmax => exact absurd ⟨hfull, hmax⟩ hbig
            | more _ hgrown => exact hgrown
        have hdata : pbuf ++ data = pbuf ++ bytes ++ data.drop bytes.length := by
          rw [append_assoc, prefix_iff_eq_append.1 hpiece]
        rw [hdata]
        exact (hmore rfl hcap' hgrown').behind hloop

/-- Without room in the first buffer there is none in any other, and the loop goes on for ever,
unless the reader reports the end at once. -/
theorem readLoop_stuck (hlimit : 0 < o.messageLengthLimit) {s : σ}
    (hread : read s 0 = ([], none, s))
    (hcap : capacity 0 = 0) (fuel : Nat) : readLoop o capacity read fuel s [] 0 = none := by
  induction fuel with
  | zero => rfl
  | succ fuel ih =>
    have hsmall : ¬ isMessageTooLarge o (0 + 1) = true := by
      intro hlarge
      have hle := (tooLarge_iff hlimit 0).1 hlarge
      omega
    have hnext : nextCap o capacity 0 = 0 := by
      have hnot : ¬ (0 < o.messageLengthLimit ∧ o.messageLengthLimit < (0 + 0 : Nat)) := by omega
      unfold nextCap
      dsimp only
      rw [show (if maxAppendSize < 0 then maxAppendSize else 0) = 0 from rfl, if_neg hnot]
      exact hcap
    have hstep : readLoop o capacity read (fuel + 1) s [] 0 =
        readLoop o capacity read fuel s [] (nextCap o capacity 0) := by
      rw [readLoop, length_nil, hread]
      exact if_neg hsmall
    rw [hstep, hnext, ih]

/-! ## The limit -/

theorem Returns.unique {s : σ} {size : Nat} {r r' : Except Err Bytes}
    (h : Returns o capacity read s size r) (h' : Returns o capacity read s size r') : r = r' := by
  obtain ⟨least, hleast⟩ := h
  obtain ⟨least', hleast'⟩ := h'
  have heq := hleast (max least least') (by omega)
  rw [hleast' (max least least') (by omega)] at heq
  exact (Option.some.inj heq).symm

theorem readAll_eq (fuel : Nat) (s : σ) (size : Nat) :
    readAll o capacity read fuel s size =
      readLoop o capacity read fuel s [] (firstCap o capacity size) := rfl

theorem firstCap_eq_zero (hcapacity : ∀ n, n ≤ capacity n)
    {size : Nat} (h : firstCap o capacity size = 0) : capacity 0 = 0 := by
  have hle := hcapacity (if 0 < o.messageLengthLimit ∧ o.messageLengthLimit < size then
    o.messageLengthLimit.toNat else size)
  unfold firstCap at h
  rw [h] at hle
  rw [Nat.le_zero.1 hle] at h
  exact h

/-- The limit is kept exactly if a message is at its end before the last buffer is full just in case
it is not longer than the limit.  Where the first buffer has no room at all, it is kept only by a
reader that is at its end and says so for an empty buffer. -/
theorem readAll_exact_iff (o : Options) (capacity : Nat → Nat)
    (read : σ → Nat → Bytes × Option ReadErr × σ) (s : σ) (size : Nat) (atLast : Bool)
    (data : Bytes)
    (hlimit : 0 < o.messageLengthLimit) (hcapacity : ∀ n, n ≤ capacity n)
    (h : Delivers read atLast s data) :
    RightlyLimited o capacity read s size data ↔
      if 0 < firstCap o capacity size then
        (data.length ≤ o.messageLengthLimit ↔
          data.length < finalCap o capacity size ∨
            data.length = finalCap o capacity size ∧ atLast = true)
      else (read s 0).2.1 = some .eof := by
  split
  · next hpos =>
    have hreturns :
        Returns o capacity read s size (verdict (finalCap o capacity size) atLast data) :=
      readLoop_verdict hlimit hcapacity h hpos (grown_finalCap hcapacity hpos)
    unfold verdict at hreturns
    constructor
    · rintro ⟨hok, hlarge⟩
      by_cases hle : data.length ≤ o.messageLengthLimit
      · refine iff_of_true hle ?_
        by_contra hnot
        rw [if_neg hnot] at hreturns
        cases hreturns.unique (hok hle)
      · refine iff_of_false hle ?_
        intro hfits
        rw [if_pos hfits] at hreturns
        cases hreturns.unique (hlarge (Int.not_le.1 hle))
    · intro hiff
      constructor
      · intro hle
        rw [if_pos (hiff.1 hle)] at hreturns
        exact hreturns
      · intro hlt
        rw [if_neg fun hfits => absurd (hiff.2 hfits) (Int.not_le.2 hlt)] at hreturns
        exact hreturns
  · next hzero =>
    have hfirst : firstCap o capacity size = 0 := by omega
    obtain ⟨⟨hstall | ⟨hnil, hbytes, heof⟩, -, -⟩, -⟩ := h
    · -- the loop never returns
      have hnever : ∀ r, ¬ Returns o capacity read s size r := by
        rintro r ⟨least, hleast⟩
        have hsome := hleast least (Nat.le_refl _)
        rw [readAll_eq, hfirst, readLoop_stuck hlimit hstall (firstCap_eq_zero hcapacity hfirst)]
          at hsome
        cases hsome
      refine iff_of_false ?_ ?_
      · rintro ⟨hok, hlarge⟩
        by_cases hle : data.length ≤ o.messageLengthLimit
        · exact hnever _ (hok hle)
        · exact hnever _ (hlarge (Int.not_le.1 hle))
      · rw [hstall]
        simp
    · refine iff_of_true ⟨fun _ => ⟨1, fun fuel hfuel => ?_⟩, fun hlt => ?_⟩ heof
      · obtain ⟨fuel, rfl⟩ := Nat.exists_eq_add_of_le' hfuel
        rw [readAll_eq, hfirst, readLoop]
        generalize read s 0 = r at hbytes heof
        obtain ⟨bytes, err, s'⟩ := r
        cases hbytes
        cases heof
        rw [hnil]
        rfl
      · rw [hnil, length_nil] at hlt
        omega

def bytesReader (atLast : Bool) (s : Bytes) (n : Nat) : Bytes × Option ReadErr × Bytes :=
  (s.take n, if s = [] ∨ atLast = true ∧ s.drop n = [] then some .eof else none, s.drop n)

theorem bytesReader_delivers (atLast : Bool) (data : Bytes) :
    Delivers (bytesReader atLast) atLast data data := by
  induction hlen : data.length using Nat.strong_induction_on generalizing data with
  | _ len ih =>
    refine .intro ⟨?_, ?_, ?_⟩ ?_ ?_ ?_ ?_
    · by_cases hnil : data = []
      · exact .inr ⟨hnil, rfl, if_pos (.inl hnil)⟩
      · refine .inl ?_
        rw [bytesReader, drop_zero, if_neg (by simp [hnil]), take_zero]
    · intro n e _ hsome
      obtain ⟨hcond, -⟩ := ite_none_right_eq_some.1 hsome
      exact hcond.elim .inr fun hlast => .inl hlast.1
    · intro n _ hatLast hall _
      refine if_pos (.inr ⟨hatLast, ?_⟩)
      have hsplit := take_append_drop n data
      rw [show data.take n = data from hall] at hsplit
      exact append_right_eq_self.1 hsplit
    · intro n
      exact length_take_le n data
    · intro n _
      exact take_prefix n data
    · intro n hn hnone
      have hne : data ≠ [] := by
        rintro rfl
        cases hnone
      have hpos := length_pos_iff.2 hne
      have hdrop : data.drop (bytesReader atLast data n).1.length = data.drop n := by
        change data.drop (data.take n).length = data.drop n
        rw [length_take, drop_eq_drop_iff]
        omega
      rw [hdrop]
      exact ih _ (by rw [length_drop]; omega) (data.drop n) rfl
    · intro n e _ hsome
      obtain ⟨hcond, ⟨⟩⟩ := ite_none_right_eq_some.1 hsome
      refine ⟨rfl, ?_⟩
      rcases hcond with rfl | ⟨-, hdrop⟩
      · exact take_nil
      · exact take_of_length_le (drop_eq_nil_iff.1 hdrop)

/-- Ten bytes are allowed, and an allocator that gives what it is asked for. -/
theorem readAll_exact_iff_ten :
    RightlyLimited
      { plainOptions with messageLengthLimit := 10, messageLengthLimit_lt := by decide } id
      (bytesReader true) (replicate 10 0) 4 (replicate 10 0) :=
  (readAll_exact_iff _ id (bytesReader true) _ 4 true _ (by decide) (fun n => Nat.le_refl n)
    (bytesReader_delivers true _)).2 (by decide)

/-- Ten bytes are allowed: twenty are delivered if the allocator has buffers of 64 bytes, and ten
are refused if the reader reports the end by itself. -/
theorem readAll_inexact :
    let o : Options :=
      { plainOptions with messageLengthLimit := 10, messageLengthLimit_lt := by decide }
    readAll o (max 64) (bytesReader false) 2 (replicate 20 0) 40 =
        some (.ok (replicate 20 0)) ∧
      readAll o id (bytesReader false) 2 (replicate 10 0) 20 = some (.error .messageTooLarge) :=
  ⟨by decide, by decide⟩

end Nbio.Websocket
