import Mathlib.Logic.Relation
import Nbio.Net.Accounting

/-!
# When `flush` returns

`flush` goes on as long as there is an entry and no error.  It comes to an end when each entry has
something to send and all of it is there (`ToWrite.Live`), whatever counts the kernel answers, as
long as it does not answer `EINTR` for ever.  An entry that is not `Live` (an empty buffer, a piece
of a file with nothing remaining or with less in the file than remains) is never taken from the list
by a kernel that meets no error, and `flush` goes round it without end.
-/

namespace Nbio.Net

open Nbio.Go List

/-- A kernel that takes something of what it is given or answers with an error, and answers `EINTR`
only finitely often. -/
structure Kernel.Fair (k : Kernel) : Prop where
  write : ∀ i, k.write i ≠ .ok 0
  sendfile : ∀ i, k.sendfile i ≠ .ok 0
  eintr : ∃ N, ∀ i, N ≤ i → k.write i ≠ .error .eintr ∧ k.sendfile i ≠ .error .eintr

/-- The answer to the system call that `flush` makes for an entry. -/
def Kernel.answer (k : Kernel) (i : Nat) (t : ToWrite) : Except Errno Nat :=
  if t.fd = 0 then k.write i else k.sendfile i

namespace ToWrite

/-- There is something to send, and it is there: a buffer has bytes behind the offset, a file as
many as remain. -/
def Live (t : ToWrite) : Prop :=
  if t.fd = 0 then ∃ b ∈ t.buf, t.offset < b.data.length
  else 0 < t.remain ∧ t.offset + t.remain ≤ t.file.length

instance (t : ToWrite) : Decidable t.Live := by
  unfold Live
  infer_instance

/-- What an entry takes to be left of it. -/
def todo (t : ToWrite) : Nat :=
  if t.fd = 0 then (t.buf.elim 0 fun b => b.data.length) - t.offset else t.remain.toNat

/-- What a system call finds of an entry. -/
def available (t : ToWrite) : Nat :=
  if t.fd = 0 then t.todo else min t.remain.toNat (t.file.length - t.offset)

def behind (t : ToWrite) (n : Nat) : ToWrite :=
  { t with offset := t.offset + n, remain := if t.fd = 0 then t.remain else t.remain - n }

/-- What the list has of an entry when `n` bytes of it have been sent. -/
def after (t : ToWrite) (n : Nat) : List ToWrite :=
  if n = 0 then [t] else if t.todo ≤ n then [] else [t.behind n]

variable {t : ToWrite} {n : Nat}

theorem live_iff : t.Live ↔ (t.fd = 0 → t.buf ≠ none) ∧ 0 < t.todo ∧ t.todo ≤ t.available := by
  unfold Live todo available
  by_cases hfd : t.fd = 0
  · simp only [hfd, todo]
    cases t.buf with
    | none => simp
    | some b =>
      simp only [if_true, Option.mem_def, Option.some.injEq, exists_eq_left', ne_eq, reduceCtorEq,
        not_false_eq_true, imp_self, Option.elim_some, Nat.sub_pos_iff_lt, le_refl, and_true,
        true_and]
  · simp only [hfd, if_false, false_imp_iff, true_and]
    omega

theorem todo_pos_iff (hfd : t.fd ≠ 0) : 0 < t.todo ↔ 0 < t.remain := by
  rw [todo, if_neg hfd, Int.pos_iff_toNat_pos]

theorem available_le_todo (t : ToWrite) : t.available ≤ t.todo := by
  unfold available todo
  split
  · exact le_rfl
  · exact Nat.min_le_left _ _

theorem todo_behind : (t.behind n).todo = t.todo - n := by
  unfold todo behind
  by_cases hfd : t.fd = 0
  · simp only [hfd, if_true]
    omega
  · simp only [hfd, if_false]
    omega

theorem available_behind : (t.behind n).available = t.available - n := by
  unfold available
  rw [todo_behind]
  unfold behind
  by_cases hfd : t.fd = 0
  · simp only [hfd, if_true]
  · simp only [hfd, if_false]
    omega

theorem live_behind (h : n < t.todo) : (t.behind n).Live ↔ t.Live := by
  rw [live_iff, live_iff, todo_behind, available_behind]
  refine and_congr_right fun _ => ?_
  omega

theorem Live.after (h : t.Live) : ∀ t' ∈ t.after n, t'.Live := by
  unfold ToWrite.after
  split
  · simpa using h
  split
  · simp
  · next hlt =>
    rw [forall_mem_singleton, live_behind (by omega)]
    exact h

theorem todo_after : ((t.after n).map todo).sum = t.todo - n := by
  unfold ToWrite.after
  split
  · next hzero => simp [hzero]
  split
  · next hle => simp [Nat.sub_eq_zero_of_le hle]
  · simp [todo_behind]

theorem after_of_not_live (h : ¬ t.Live) (hbuf : t.fd = 0 → t.buf ≠ none) (hn : n ≤ t.available) :
    ∃ t' ∈ t.after n, ¬ t'.Live := by
  have hlive := live_iff.not.1 h
  have hle := t.available_le_todo
  unfold ToWrite.after
  split
  · exact ⟨t, mem_singleton_self t, h⟩
  split
  · exact absurd ⟨hbuf, by omega, by omega⟩ hlive
  · next hlt => exact ⟨_, mem_singleton_self _, (live_behind (by omega)).not.2 h⟩

end ToWrite

namespace Conn

variable {g : Engine} {k : Kernel} {c c' : Conn} {head : ToWrite} {rest : List ToWrite}

/-! ## One iteration -/

/-- What an iteration leaves when the kernel takes `n` bytes of the head of the list. -/
structure Takes (c : Conn) (head : ToWrite) (rest : List ToWrite) (n : Nat) (c' : Conn) : Prop where
  writeList : c'.writeList = head.after n ++ rest
  accepted : c'.accepted.length = c.accepted.length + n
  calls : c'.calls = c.calls + 1
  isWAdded : c'.isWAdded = c.isWAdded

/-- What the kernel has answered and the registration are the same. -/
def SeesSame (c c' : Conn) : Prop :=
  c'.accepted = c.accepted ∧ c'.calls = c.calls ∧ c'.isWAdded = c.isWAdded

theorem Sends.takes {c₁ : Conn} {b : Bytes} {n : Nat} (h : Sends c c₁ b n)
    (hcalls : c₁.calls = c.calls + 1 ∧ c₁.isWAdded = c.isWAdded)
    (hlist : c'.writeList = head.after n ++ rest) (hsame : SeesSame c₁ c') :
    c.Takes head rest n c' where
  writeList := hlist
  accepted := by
    rw [hsame.1, h.accepted, length_append, length_take, Nat.min_eq_left h.le]
  calls := hsame.2.1.trans hcalls.1
  isWAdded := hsame.2.2.trans hcalls.2

theorem Sends.takes_head {c₁ cd cp : Conn} {b : Bytes} {n : Nat} (h : Sends c c₁ b n)
    (hcalls : c₁.calls = c.calls + 1 ∧ c₁.isWAdded = c.isWAdded)
    (hlist : c.writeList = head :: rest) {done : Prop}
    [Decidable done] (hdone : 0 < n → (done ↔ head.todo ≤ n))
    (hd : cd.writeList = rest) (hd' : SeesSame c₁ cd)
    (hp : cp.writeList = head.behind n :: rest) (hp' : SeesSame c₁ cp) :
    let r : Option Errno × Conn :=
      if 0 < (n : Int) then (none, if done then cd else cp) else (none, c₁)
    r.1 = none ∧ c.Takes head rest n r.2 := by
  split
  · have hne : ¬ n = 0 := by omega
    have hdone := hdone (by omega)
    refine ⟨rfl, ?_⟩
    by_cases hall : done
    · rw [if_pos hall]
      refine h.takes hcalls ?_ hd'
      rw [hd, ToWrite.after, if_neg hne, if_pos (hdone.1 hall)]
      rfl
    · rw [if_neg hall]
      refine h.takes hcalls ?_ hp'
      rw [hp, ToWrite.after, if_neg hne, if_neg (hdone.not.1 hall)]
      rfl
  · obtain rfl : n = 0 := by omega
    exact ⟨rfl, h.takes hcalls (h.writeList.trans hlist) ⟨rfl, rfl, rfl⟩⟩

theorem reportWritten_seen (n : Nat) : SeesSame c (c.reportWritten g n) := by
  unfold reportWritten
  split <;> exact ⟨rfl, rfl, rfl⟩

theorem writeBuffer_ok {b : Buffer} {n : Nat} (hlist : c.writeList = head :: rest)
    (hfd : head.fd = 0) (hb : head.buf = some b) (h : k.write c.calls = .ok n) :
    (c.writeBuffer g k head b rest).1 = none ∧
      c.Takes head rest (min n head.available) (c.writeBuffer g k head b rest).2 := by
  have htodo : (b.data.drop head.offset).length = head.todo := by simp [ToWrite.todo, hfd, hb]
  have havail : head.available = head.todo := if_pos hfd
  have hsends := sysWrite_sends (k := k) (c := c) (b.data.drop head.offset)
  unfold writeBuffer
  simp only [sysWrite, h, htodo, ← havail] at hsends ⊢
  refine hsends.takes_head ⟨rfl, rfl⟩ hlist (fun _ => ?_) rfl (reportWritten_seen _) ?_
    (reportWritten_seen _)
  · omega
  · simp [ToWrite.behind, hfd]

theorem writeFile_ok {n : Nat} (hlist : c.writeList = head :: rest) (hfd : head.fd ≠ 0)
    (h : k.sendfile c.calls = .ok n) :
    (c.writeFile g k head rest).1 = none ∧
      c.Takes head rest (min n head.available) (c.writeFile g k head rest).2 := by
  have htodo : head.todo = head.remain.toNat := if_neg hfd
  have havail : head.available = min head.remain.toNat (head.file.length - head.offset) :=
    if_neg hfd
  have hsends := sysSendfile_sends (k := k) (c := c) head.file head.offset head.remain.toNat
  unfold writeFile
  simp only [sysSendfile, h, ← havail] at hsends ⊢
  refine hsends.takes_head ⟨rfl, rfl⟩ hlist (fun _ => ?_) rfl (reportWritten_seen _) ?_
    (reportWritten_seen _)
  · omega
  · simp [ToWrite.behind, hfd]

theorem flushHead_ok {n : Nat} (hlist : c.writeList = head :: rest)
    (hbuf : head.fd = 0 → head.buf ≠ none) (hremain : head.fd ≠ 0 → 0 < head.todo)
    (h : k.answer c.calls head = .ok n) :
    ∃ c', c.flushHead g k head rest = some (none, c') ∧
      c.Takes head rest (min n head.available) c' := by
  unfold flushHead
  unfold Kernel.answer at h
  by_cases hfd : head.fd = 0
  · rw [if_pos hfd] at h ⊢
    obtain ⟨b, hb⟩ := Option.ne_none_iff_exists'.1 (hbuf hfd)
    obtain ⟨hnone, htakes⟩ := writeBuffer_ok hlist hfd hb h
    refine ⟨_, ?_, htakes⟩
    rw [hb, ← hnone]
    rfl
  · rw [if_neg hfd] at h ⊢
    obtain ⟨hnone, htakes⟩ := writeFile_ok hlist hfd h
    refine ⟨_, ?_, htakes⟩
    rw [if_pos ((ToWrite.todo_pos_iff hfd).1 (hremain hfd)), ← hnone]

theorem flushHead_idle (rest : List ToWrite) (hfd : head.fd ≠ 0) (htodo : head.todo = 0) :
    c.flushHead g k head rest = some (none, c) := by
  rw [flushHead, if_neg hfd, if_neg (by rw [← ToWrite.todo_pos_iff hfd]; omega)]

theorem flushHead_error {e : Errno} (rest : List ToWrite) (hbuf : head.fd = 0 → head.buf ≠ none)
    (hremain : head.fd ≠ 0 → 0 < head.todo) (h : k.answer c.calls head = .error e) :
    c.flushHead g k head rest = some (some e, { c with calls := c.calls + 1 }) := by
  unfold Kernel.answer at h
  unfold flushHead
  by_cases hfd : head.fd = 0
  · rw [if_pos hfd] at h ⊢
    obtain ⟨b, hb⟩ := Option.ne_none_iff_exists'.1 (hbuf hfd)
    rw [hb]
    simp [writeBuffer, sysWrite, h]
  · rw [if_neg hfd] at h ⊢
    rw [if_pos ((ToWrite.todo_pos_iff hfd).1 (hremain hfd))]
    simp [writeFile, sysSendfile, h]

/-! ## The loop -/

/-- The connection with which the loop of `flush` goes on after an iteration. -/
def flushNext (g : Engine) (k : Kernel) (c : Conn) : Option Conn :=
  match c.writeList with
  | [] => none
  | head :: rest =>
    match c.flushHead g k head rest with
    | some (none, c') => some c'
    | some (some .eintr, c') => some c'
    | _ => none

theorem flushNext_of_ok (hlist : c.writeList = head :: rest)
    (h : c.flushHead g k head rest = some (none, c')) : c.flushNext g k = some c' := by
  simp only [flushNext, hlist, h]

theorem flushNext_of_eintr (hlist : c.writeList = head :: rest)
    (h : c.flushHead g k head rest = some (some .eintr, c')) : c.flushNext g k = some c' := by
  simp only [flushNext, hlist, h]

theorem flushLoop_next (h : c.flushNext g k = some c') (fuel : Nat) :
    c.flushLoop g k (fuel + 1) = c'.flushLoop g k fuel := by
  unfold flushNext at h
  split at h
  · cases h
  · next hlist =>
    split at h
    · next hr =>
      cases h
      simp only [flushLoop, hlist, hr]
    · next hr =>
      cases h
      simp only [flushLoop, hlist, hr]
    · cases h

/-- An iteration that the loop goes on from has sent a byte, taken an entry from the list, or was
interrupted. -/
def Advances (g : Engine) (k : Kernel) (c c' : Conn) : Prop :=
  c.accepted.length < c'.accepted.length ∨ c'.writeList.length < c.writeList.length ∨
    ∃ head rest, c.writeList = head :: rest ∧
      c.flushHead g k head rest = some (some .eintr, c')

def AllLive (c : Conn) : Prop := ∀ t ∈ c.writeList, t.Live

def remaining (c : Conn) : Nat := (c.writeList.map ToWrite.todo).sum

def LoopReturns (g : Engine) (k : Kernel) (c : Conn) : Prop :=
  ∃ fuel n err, (c.flushLoop g k fuel).1 = .returns n err

theorem left_of_error {e : Errno} (hlist : c.writeList = head :: rest)
    (h : c.flushHead g k head rest = some (some e, c')) (he : e ≠ .eintr) :
    c.flushNext g k = none ∧ c.LoopReturns g k := by
  refine ⟨?_, 1, 0, if e = .eagain then none else some (.errno e), ?_⟩
  · cases e with
    | eintr => exact absurd rfl he
    | eagain => simp only [flushNext, hlist, h]
    | eexist => simp only [flushNext, hlist, h]
    | enoent => simp only [flushNext, hlist, h]
    | other code => simp only [flushNext, hlist, h]
  · cases e with
    | eintr => exact absurd rfl he
    | eagain => simp [flushLoop, hlist, h]
    | eexist => simp [flushLoop, hlist, h]
    | enoent => simp [flushLoop, hlist, h]
    | other code => simp [flushLoop, hlist, h]

/-- An iteration that sends some of what remains. -/
structure Sending (c c' : Conn) : Prop where
  live : c'.AllLive
  accepted : c.accepted.length < c'.accepted.length
  remaining : c'.remaining < c.remaining
  calls : c.calls ≤ c'.calls

theorem Takes.sending {n : Nat} (h : c.Takes head rest n c') (hlist : c.writeList = head :: rest)
    (hlive : c.AllLive) (hpos : 0 < n) : c.Sending c' where
  live := by
    rw [AllLive, hlist] at hlive
    rw [AllLive, h.writeList]
    intro t ht
    rcases mem_append.1 ht with hmem | hmem
    · exact (hlive head mem_cons_self).after t hmem
    · exact hlive t (mem_cons_of_mem _ hmem)
  accepted := by
    rw [h.accepted]
    omega
  remaining := by
    have htodo := (ToWrite.live_iff.1 (hlive head (by simp [hlist]))).2.1
    rw [Conn.remaining, Conn.remaining, h.writeList, hlist, map_append, sum_append,
      ToWrite.todo_after, map_cons, sum_cons]
    omega
  calls := by rw [h.calls]; exact Nat.le_succ _

theorem iteration_of_live (hk : k.Fair) (hlist : c.writeList = head :: rest)
    (hlive : c.AllLive) :
    (∃ c', c.flushHead g k head rest = some (none, c') ∧ c.Sending c') ∨
      (c.flushHead g k head rest = some (some .eintr, { c with calls := c.calls + 1 }) ∧
        k.answer c.calls head = .error .eintr) ∨
      (c.flushNext g k = none ∧ c.LoopReturns g k) := by
  obtain ⟨hbuf, htodo, havail⟩ := ToWrite.live_iff.1 (hlive head (by simp [hlist]))
  cases ha : k.answer c.calls head with
  | ok n =>
    obtain ⟨c', hc', htakes⟩ := flushHead_ok hlist hbuf (fun _ => htodo) ha
    have hn : n ≠ 0 := by
      rintro rfl
      unfold Kernel.answer at ha
      split at ha
      · exact hk.write _ ha
      · exact hk.sendfile _ ha
    exact .inl ⟨c', hc', htakes.sending hlist hlive (by omega)⟩
  | error e =>
    have hr := flushHead_error (g := g) rest hbuf (fun _ => htodo) ha
    by_cases he : e = .eintr
    · subst he
      exact .inr (.inl ⟨hr, rfl⟩)
    · exact .inr (.inr (left_of_error hlist hr he))

theorem LoopReturns.of_next (hnext : c.flushNext g k = some c') (h : c'.LoopReturns g k) :
    c.LoopReturns g k := by
  obtain ⟨fuel, n, err, hr⟩ := h
  exact ⟨fuel + 1, n, err, by rw [flushLoop_next hnext]; exact hr⟩

theorem loopReturns_of_live (hk : k.Fair) (hlive : c.AllLive) : c.LoopReturns g k := by
  obtain ⟨N, hN⟩ := hk.eintr
  generalize hm : c.remaining + (N - c.calls) = m
  induction m using Nat.strong_induction_on generalizing c with
  | _ m ih =>
    cases hlist : c.writeList with
    | nil => exact ⟨1, 0, none, by simp only [flushLoop, hlist]⟩
    | cons head rest =>
      rcases iteration_of_live hk hlist hlive with
        ⟨c', hr, hsend⟩ | ⟨hr, ha⟩ | ⟨-, hret⟩
      · have hless := hsend.remaining
        have hcalls := hsend.calls
        exact (ih _ (by omega) hsend.live rfl).of_next (flushNext_of_ok hlist hr)
      · have hbefore : c.calls < N := by
          by_contra hge
          obtain ⟨hw, hs⟩ := hN c.calls (Nat.le_of_not_lt hge)
          unfold Kernel.answer at ha
          split at ha
          · exact hw ha
          · exact hs ha
        have hsame : remaining { c with calls := c.calls + 1 } = c.remaining := rfl
        refine LoopReturns.of_next (flushNext_of_eintr hlist hr) (ih _ ?_ hlive rfl)
        dsimp only
        omega
      · exact hret

theorem advances_of_live (hk : k.Fair) (hlive : c.AllLive) (hnext : c.flushNext g k = some c') :
    c'.AllLive ∧ c.Advances g k c' := by
  cases hlist : c.writeList with
  | nil => simp only [flushNext, hlist] at hnext; cases hnext
  | cons head rest =>
    rcases iteration_of_live hk hlist hlive with ⟨c₁, hr, hsend⟩ | ⟨hr, -⟩ | ⟨hnone, -⟩
    · rw [flushNext_of_ok hlist hr] at hnext
      cases hnext
      exact ⟨hsend.live, .inl hsend.accepted⟩
    · rw [flushNext_of_eintr hlist hr] at hnext
      cases hnext
      exact ⟨hlive, .inr (.inr ⟨head, rest, hlist, hr⟩)⟩
    · rw [hnone] at hnext
      cases hnext

theorem live_of_iterations (hk : k.Fair) (hlive : c.AllLive)
    (h : Relation.ReflTransGen (fun a b => a.flushNext g k = some b) c c') : c'.AllLive := by
  induction h with
  | refl => exact hlive
  | tail _ hstep ih => exact (advances_of_live hk ih hstep).1

/-! ## Entries with nothing to send -/

/-- An entry that has nothing to send stays in the list, when no call meets an error. -/
theorem stuck_step (hk : ∀ t, ∃ n, k.answer c.calls t = .ok n) (h : ∃ t ∈ c.writeList, ¬ t.Live) :
    (∃ c', c.flushNext g k = some c' ∧ c.calls ≤ c'.calls ∧ ∃ t ∈ c'.writeList, ¬ t.Live) ∨
      ∀ fuel, (c.flushLoop g k (fuel + 1)).1 = .panics := by
  obtain ⟨t, ht, hdead⟩ := h
  cases hlist : c.writeList with
  | nil => rw [hlist] at ht; cases ht
  | cons head rest =>
    by_cases hidle : head.fd ≠ 0 ∧ head.todo = 0
    · have hr := flushHead_idle (c := c) (g := g) (k := k) rest hidle.1 hidle.2
      exact .inl ⟨c, flushNext_of_ok hlist hr, le_rfl, t, ht, hdead⟩
    by_cases hbuf : head.fd = 0 → head.buf ≠ none
    · obtain ⟨n, hn⟩ := hk head
      obtain ⟨c', hr, htakes⟩ := flushHead_ok hlist hbuf (fun hfd => by
        have hne : head.todo ≠ 0 := fun h => hidle ⟨hfd, h⟩
        omega) hn
      refine .inl ⟨c', flushNext_of_ok hlist hr, by rw [htakes.calls]; exact Nat.le_succ _, ?_⟩
      rw [htakes.writeList]
      rw [hlist] at ht
      rcases mem_cons.1 ht with rfl | hrest
      · obtain ⟨t', ht', hdead'⟩ := ToWrite.after_of_not_live hdead hbuf (Nat.min_le_right _ _)
        exact ⟨t', mem_append_left _ ht', hdead'⟩
      · exact ⟨t, mem_append_right _ hrest, hdead⟩
    · push Not at hbuf
      have hr : c.flushHead g k head rest = none := by
        rw [flushHead, if_pos hbuf.1, hbuf.2]
        rfl
      exact .inr fun fuel => by simp only [flushLoop, hlist, hr]

theorem not_returns_of_stuck (hk : ∀ i t, c.calls ≤ i → ∃ n, k.answer i t = .ok n)
    (h : ∃ t ∈ c.writeList, ¬ t.Live) (fuel : Nat) (n : Int) (err : Option Err) :
    (c.flushLoop g k fuel).1 ≠ .returns n err := by
  induction fuel generalizing c with
  | zero => intro hr; cases hr
  | succ fuel ih =>
    rcases stuck_step (fun t => hk _ t le_rfl) h with
      ⟨c', hnext, hcalls, hstuck⟩ | hpanic
    · rw [flushLoop_next hnext]
      exact ih (fun i t hi => hk i t (hcalls.trans hi)) hstuck
    · rw [hpanic]
      intro hr
      cases hr

/-- A call of `flush` comes to its end, and until then each iteration advances. -/
structure FlushEnds (g : Engine) (k : Kernel) (c : Conn) : Prop where
  returns : ∃ fuel n err, (c.flush g k fuel).1 = .returns n err
  advances : c.closed = false → ∀ c₁ c₂,
    Relation.ReflTransGen (fun a b => a.flushNext g k = some b) c c₁ →
      c₁.flushNext g k = some c₂ → c₁.Advances g k c₂

def byteKernel : Kernel :=
  { write := fun _ => .ok 1
    sendto := fun _ => none
    sendfile := fun _ => .ok 1
    dup := fun _ => .ok 9
    epollCtl := fun _ => none }

theorem byteKernel_fair : byteKernel.Fair where
  write i := by simp [byteKernel]
  sendfile i := by simp [byteKernel]
  eintr := ⟨0, fun i _ => by simp [byteKernel]⟩

/-- `flush` returns, whatever a fair kernel answers, exactly if the connection is closed or every
entry of its list has something to send that is there. -/
theorem flush_ends_iff (g : Engine) (c : Conn) :
    (∀ k : Kernel, k.Fair → c.FlushEnds g k) ↔ c.closed = true ∨ ∀ t ∈ c.writeList, t.Live := by
  constructor
  · intro h
    by_contra hno
    push Not at hno
    obtain ⟨hopen, hstuck⟩ := hno
    obtain ⟨fuel, n, err, hr⟩ := (h byteKernel byteKernel_fair).returns
    have hlist : c.writeList ≠ [] := by
      obtain ⟨t, ht, -⟩ := hstuck
      exact ne_nil_of_mem ht
    rw [flush, if_neg hopen, if_neg hlist] at hr
    refine not_returns_of_stuck (fun i t _ => ⟨1, ?_⟩) hstuck fuel n err hr
    unfold Kernel.answer
    split <;> rfl
  · intro h k hk
    by_cases hclosed : c.closed = true
    · refine ⟨⟨0, _, _, by rw [flush, if_pos hclosed]⟩, fun hopen => ?_⟩
      rw [hclosed] at hopen
      cases hopen
    have hlive : c.AllLive := h.resolve_left hclosed
    refine ⟨?_, fun _ c₁ c₂ hreach hnext => ?_⟩
    · by_cases hlist : c.writeList = []
      · exact ⟨0, _, _, by rw [flush, if_neg hclosed, if_pos hlist]⟩
      · obtain ⟨fuel, n, err, hr⟩ := loopReturns_of_live hk hlive
        exact ⟨fuel, n, err, by rw [flush, if_neg hclosed, if_neg hlist]; exact hr⟩
    · exact (advances_of_live hk (live_of_iterations hk hlive hreach) hnext).2

/-- A kernel that takes nothing in its first three calls, and then all there is. -/
def busyKernel : Kernel :=
  { write := fun i => if i < 3 then .error .eagain else .ok 100
    sendto := fun _ => none
    sendfile := fun i => if i < 3 then .error .eagain else .ok 100
    dup := fun _ => .ok 9
    epollCtl := fun _ => none }

theorem busyKernel_fair : busyKernel.Fair where
  write i := by
    dsimp only [busyKernel]
    split <;> simp
  sendfile i := by
    dsimp only [busyKernel]
    split <;> simp
  eintr := by
    refine ⟨3, fun i hi => ?_⟩
    have hlt : ¬ i < 3 := Nat.not_lt.2 hi
    simp [busyKernel, hlt]

theorem busyKernel_answer (i : Nat) (t : ToWrite) (h : 3 ≤ i) :
    ∃ n, busyKernel.answer i t = .ok n := by
  have hlt : ¬ i < 3 := Nat.not_lt.2 h
  refine ⟨100, ?_⟩
  unfold Kernel.answer
  split <;> simp [busyKernel, hlt]

/-- Behind data that waits `Sendfile` queues a file with nothing to send, and behind a piece of a
file `Writev` queues a buffer of length 0.  Neither is ever taken from the list. -/
theorem flush_never_returns :
    let file := Op.run plainEngine busyKernel (newConn 7 .tcp)
      [.write (ascii "hello"), .sendfile (some ⟨4, 4, ascii "file", none⟩) 0 1]
    let slices := Op.run plainEngine busyKernel (newConn 7 .tcp)
      [.sendfile (some ⟨0, 4, ascii "file", none⟩) 0 1, .writev [[], []]]
    busyKernel.Fair ∧
      (∀ fuel n err, (file.flush plainEngine busyKernel fuel).1 ≠ .returns n err) ∧
      ∀ fuel n err, (slices.flush plainEngine busyKernel fuel).1 ≠ .returns n err := by
  have hstuck : ∀ c : Conn, c.closed = false → c.calls = 3 → (∃ t ∈ c.writeList, ¬ t.Live) →
      ∀ fuel n err, (c.flush plainEngine busyKernel fuel).1 ≠ .returns n err := by
    intro c hopen hcalls hdead fuel n err
    have hlist : c.writeList ≠ [] := by
      obtain ⟨t, ht, -⟩ := hdead
      exact ne_nil_of_mem ht
    rw [flush, hopen, if_neg hlist]
    refine not_returns_of_stuck (fun i t hi => busyKernel_answer i t ?_) hdead fuel n err
    rw [← hcalls]
    exact hi
  exact ⟨busyKernel_fair, hstuck _ (by decide) (by decide) (by decide),
    hstuck _ (by decide) (by decide) (by decide)⟩

end Conn

end Nbio.Net
