import Nbio.Net.WriteStream

/-!
# What `Sendfile` says it has taken

`Sendfile` fixes the count that it returns before its loop, from the size of the file.  The loop can
be left with a part that has neither been sent nor queued: when `sendfile(2)` sends nothing, and
when it would block and the descriptor cannot be duplicated.
-/

namespace Nbio.Net

open Nbio.Go List Option

namespace Conn

def File.rest (f : File) : Bytes := f.contents.drop f.offset

/-- `c'` has sent or queued `n` bytes beyond `c`, and these are the first ones of `rest`. -/
def Took (c c' : Conn) (rest : Bytes) (n : Int) : Prop :=
  ∃ sent queued : Bytes, c'.accepted = c.accepted ++ sent ∧ c'.pending = c.pending ++ queued ∧
    sent ++ queued <+: rest ∧ n = (sent.length + queued.length : Nat)

/-- The bytes that go out by an answer of `n`, when `sent` of `total` have gone out. -/
def sendCount (rest : Bytes) (total : Int) (sent n : Nat) : Nat :=
  min n (min (min maxSendfileSize (total - sent).toNat) (rest.length - sent))

/-- How many bytes the loop has sent when it makes its call `i`; `none` if it has been left. -/
def sentBefore (k : Kernel) (calls : Nat) (rest : Bytes) (total : Int) : Nat → Option Nat
  | 0 => if 0 < total then some 0 else none
  | i + 1 =>
    match sentBefore k calls rest total i with
    | none => none
    | some sent =>
      match k.sendfile (calls + i) with
      | .ok n =>
        let m := sendCount rest total sent n
        if 0 < m ∧ (sent + m : Nat) < total then some (sent + m) else none
      | .error .eintr => some sent
      | .error _ => none

/-- What the kernel may answer to call `i` of the loop, when `sent` bytes have gone out: it sends
something, or the descriptor of the file can be duplicated and the file holds all that is to be
sent. -/
def Obliges (k : Kernel) (calls : Nat) (rest : Bytes) (total : Int) (i sent : Nat) : Prop :=
  match k.sendfile (calls + i) with
  | .ok n => 0 < n ∧ sent < rest.length
  | .error .eagain => (∃ fd, k.dup (calls + i + 1) = .ok fd) ∧ total ≤ rest.length
  | .error _ => True

/-- When the count that `Sendfile` returns is right. -/
def CountsRight (k : Kernel) (c : Conn) (f : Option File) (remain : Int) : Prop :=
  match f with
  | none => True
  | some f =>
    c.closed = true ∨ f.err ≠ none ∨
      if c.writeList = [] then
        f.offset ≤ f.size ∧ ∀ i sent, sentBefore k c.calls f.rest (f.toSend remain) i = some sent →
          Obliges k c.calls f.rest (f.toSend remain) i sent
      else
        (∃ fd, k.dup c.calls = .ok fd) → f.offset ≤ f.size ∧ f.toSend remain ≤ f.rest.length

variable {g : Engine} {k : Kernel} {c : Conn} {file : Bytes} {offset i sent : Nat} {total : Int}

/-! ## One round of the loop -/

/-- The connection behind `i` calls that have sent the first bytes of `rest`. -/
def sentFile (c : Conn) (rest : Bytes) (i sent : Nat) : Conn :=
  { c with calls := c.calls + i, accepted := c.accepted ++ rest.take sent }

theorem sentBefore_lt {rest : Bytes} {calls : Nat}
    (h : sentBefore k calls rest total i = some sent) : (sent : Int) < total := by
  induction i generalizing sent with
  | zero =>
    rw [sentBefore] at h
    split at h
    · cases h
      assumption
    · cases h
  | succ i ih =>
    rw [sentBefore] at h
    cases hbefore : sentBefore k calls rest total i with
    | none =>
      rw [hbefore] at h
      cases h
    | some s =>
      rw [hbefore] at h
      cases hk : k.sendfile (calls + i) with
      | ok n =>
        rw [hk] at h
        obtain ⟨hm, ⟨⟩⟩ := ite_none_right_eq_some.1 h
        exact hm.2
      | error e =>
        rw [hk] at h
        cases e with
        | eintr =>
          cases h
          exact ih hbefore
        | eagain => cases h
        | eexist => cases h
        | enoent => cases h
        | other code => cases h

theorem sysSendfile_ok {n : Nat} (hk : k.sendfile (c.calls + i) = .ok n) :
    let m := sendCount (file.drop offset) total sent n
    (c.sentFile (file.drop offset) i sent).sysSendfile k file (offset + sent)
        (min maxSendfileSize (total - sent).toNat) =
      ((((m : Nat) : Int), none), c.sentFile (file.drop offset) (i + 1) (sent + m)) := by
  have hlen : file.length - (offset + sent) = (file.drop offset).length - sent := by
    rw [length_drop]
    omega
  simp only [sysSendfile, sentFile, hk, hlen, sendCount, append_assoc, take_add, drop_drop,
    Nat.add_assoc]

theorem sysSendfile_error {e : Errno} (hk : k.sendfile (c.calls + i) = .error e) (count : Nat) :
    (c.sentFile (file.drop offset) i sent).sysSendfile k file (offset + sent) count =
      ((-1, some e), c.sentFile (file.drop offset) (i + 1) sent) := by
  simp only [sysSendfile, sentFile, hk, Nat.add_assoc]

theorem sendfileLoop_ok (fuel : Nat) {n : Nat} (hlt : (sent : Int) < total)
    (hk : k.sendfile (c.calls + i) = .ok n) :
    let m := sendCount (file.drop offset) total sent n
    sendfileLoop g k file total (fuel + 1) (c.sentFile (file.drop offset) i sent) (offset + sent)
        (total - sent) =
      if m = 0 then (.returns total none, c.sentFile (file.drop offset) (i + 1) sent)
      else sendfileLoop g k file total fuel (c.sentFile (file.drop offset) (i + 1) (sent + m))
        (offset + (sent + m)) (total - (sent + m : Nat)) := by
  have hrun : ¬ total - (sent : Int) ≤ 0 := by omega
  rw [sendfileLoop, if_neg hrun, sysSendfile_ok hk]
  dsimp only
  generalize sendCount (file.drop offset) total sent n = m
  by_cases hm : m = 0
  · rw [hm]
    rfl
  · have hsub : total - (sent : Int) - (m : Nat) = total - (sent + m : Nat) := by omega
    rw [if_neg hm, if_neg (by simpa using hm), Int.toNat_natCast, Nat.add_assoc, hsub]

theorem sendfileLoop_error (fuel : Nat) {e : Errno} (hlt : (sent : Int) < total)
    (hk : k.sendfile (c.calls + i) = .error e) :
    let c' := c.sentFile (file.drop offset) (i + 1) sent
    sendfileLoop g k file total (fuel + 1) (c.sentFile (file.drop offset) i sent) (offset + sent)
        (total - sent) =
      match e with
      | .eintr => sendfileLoop g k file total fuel c' (offset + sent) (total - sent)
      | .eagain =>
        match k.dup (c.calls + i + 1) with
        | .ok fd => (.returns total none,
          ((c.sentFile (file.drop offset) (i + 2) sent).newToWriteFile fd (offset + sent)
            (total - sent)
            file).modWrite g k)
        | .error _ => (.returns total none, c.sentFile (file.drop offset) (i + 2) sent)
      | e => (.returns 0 (some (.errno e)), c'.fail (.errno e)) := by
  intro c'
  have hrun : ¬ total - (sent : Int) ≤ 0 := by omega
  rw [sendfileLoop, if_neg hrun, sysSendfile_error hk]
  cases e with
  | eintr => simp [c']
  | eagain =>
    have hdup :
        c'.sysDup k = (k.dup (c.calls + i + 1), c.sentFile (file.drop offset) (i + 2) sent) := rfl
    simp only [c'] at hdup
    simp [hdup]
    cases k.dup (c.calls + i + 1) <;> rfl
  | eexist => simp [c']
  | enoent => simp [c']
  | other code => simp [c']

theorem sendfileLoop_from (h : sentBefore k c.calls (file.drop offset) total i = some sent)
    (fuel : Nat) : sendfileLoop g k file total (fuel + i) c offset total =
      sendfileLoop g k file total fuel (c.sentFile (file.drop offset) i sent) (offset + sent)
        (total - sent) := by
  induction i generalizing sent fuel with
  | zero =>
    rw [sentBefore] at h
    split at h
    · cases h
      simp [sentFile]
    · cases h
  | succ i ih =>
    rw [sentBefore] at h
    cases hbefore : sentBefore k c.calls (file.drop offset) total i with
    | none =>
      rw [hbefore] at h
      cases h
    | some s =>
      have hlt := sentBefore_lt hbefore
      rw [hbefore] at h
      have hround : fuel + (i + 1) = fuel + 1 + i := by omega
      rw [hround, ih hbefore (fuel + 1)]
      cases hk : k.sendfile (c.calls + i) with
      | ok n =>
        rw [hk] at h
        obtain ⟨hm, ⟨⟩⟩ := ite_none_right_eq_some.1 h
        have hpos : sendCount (file.drop offset) total s n ≠ 0 := by omega
        rw [sendfileLoop_ok fuel hlt hk, if_neg hpos]
      | error e =>
        rw [hk] at h
        rw [sendfileLoop_error fuel hlt hk]
        cases e with
        | eintr =>
          cases h
          rfl
        | eagain => cases h
        | eexist => cases h
        | enoent => cases h
        | other code => cases h

/-! ## The count -/

variable {rest : Bytes} {n : Int}

theorem Took.bounds {c' : Conn} (h : Took c c' rest n) : 0 ≤ n ∧ n ≤ rest.length := by
  obtain ⟨sent, queued, -, -, hprefix, rfl⟩ := h
  have hle := hprefix.length_le
  rw [length_append] at hle
  exact ⟨by omega, by exact_mod_cast hle⟩

theorem took_sentFile_iff :
    Took c (c.sentFile rest i sent) rest n ↔ n = (rest.take sent).length := by
  constructor
  · rintro ⟨sent', queued, haccepted, hpending, -, rfl⟩
    have hsent : rest.take sent = sent' := append_cancel_left haccepted
    have hqueued : c.pending = c.pending ++ queued := hpending
    have hnil : queued = [] := by simpa using hqueued
    rw [hsent, hnil]
    simp
  · rintro rfl
    exact ⟨rest.take sent, [], rfl, (append_nil _).symm, by simpa using take_prefix _ _, by simp⟩

theorem took_queued_iff {c' : Conn} (sent : Nat)
    (haccepted : c'.accepted = c.accepted ++ rest.take sent)
    (hpending : c'.pending = c.pending ++ (rest.drop sent).take (n - sent).toNat) (hle : sent ≤ n) :
    Took c c' rest n ↔ n ≤ rest.length := by
  constructor
  · intro h
    exact h.bounds.2
  · intro hlen
    refine ⟨rest.take sent, (rest.drop sent).take (n - sent).toNat, haccepted, hpending, ?_, ?_⟩
    · rw [← take_add]
      exact take_prefix _ _
    · rw [length_take, length_take, length_drop]
      omega

theorem newToWriteFile_pending (fd offset : Nat) (remain : Int) (file : Bytes) :
    (c.newToWriteFile fd offset remain file).pending =
      c.pending ++ (file.drop offset).take remain.toNat := by
  simp [newToWriteFile, pending, ToWrite.pending]

theorem took_file_iff {f : File} (fd : Nat) :
    Took c ({ c with calls := c.calls + 1 }.newToWriteFile fd f.offset n f.contents) f.rest n ↔
      0 ≤ n ∧ n ≤ f.rest.length := by
  constructor
  · intro h
    exact h.bounds
  · rintro ⟨hnonneg, hlen⟩
    refine (took_queued_iff 0 ?_ ?_ (by omega)).2 hlen
    · exact (append_nil _).symm
    · rw [newToWriteFile_pending, Int.natCast_zero, Int.sub_zero]
      rfl

theorem took_eagain_iff (fd : Nat) (hlt : (sent : Int) < total) :
    Took c (((c.sentFile (file.drop offset) i sent).newToWriteFile fd (offset + sent) (total - sent)
      file).modWrite g k) (file.drop offset) total ↔ total ≤ (file.drop offset).length := by
  have hsame := (modWrite_registers (g := g) (k := k) (c := (c.sentFile (file.drop offset) i
    sent).newToWriteFile fd (offset + sent) (total - sent) file)).same
  refine took_queued_iff sent ?_ ?_ (by omega)
  · rw [hsame.accepted]
    rfl
  · rw [pending, hsame.writeList, ← pending, newToWriteFile_pending, drop_drop]
    rfl

theorem sendCount_le (rest : Bytes) (total : Int) (sent n : Nat) :
    sendCount rest total sent n ≤ rest.length - sent ∧
      sendCount rest total sent n ≤ (total - sent).toNat := by
  unfold sendCount
  omega

theorem sendCount_eq_zero_iff (hlt : (sent : Int) < total) (n : Nat) :
    sendCount rest total sent n = 0 ↔ ¬ (0 < n ∧ sent < rest.length) := by
  have hcount : 0 < min maxSendfileSize (total - sent).toNat := by
    rw [maxSendfileSize]
    omega
  unfold sendCount
  omega

theorem sendfileLoop_took
    (hall : ∀ i sent, sentBefore k c.calls (file.drop offset) total i = some sent →
      Obliges k c.calls (file.drop offset) total i sent)
    (fuel : Nat) (h : sentBefore k c.calls (file.drop offset) total i = some sent) {c' : Conn}
    (hret : sendfileLoop g k file total fuel (c.sentFile (file.drop offset) i sent) (offset + sent)
      (total - sent) = (.returns n none, c')) : Took c c' (file.drop offset) n := by
  induction fuel generalizing i sent with
  | zero => cases hret
  | succ fuel ih =>
    have hlt := sentBefore_lt h
    have hanswer := hall i sent h
    unfold Obliges at hanswer
    cases hk : k.sendfile (c.calls + i) with
    | ok m =>
      rw [hk] at hanswer
      have hle := sendCount_le (file.drop offset) total sent m
      have hpos : sendCount (file.drop offset) total sent m ≠ 0 := fun hzero =>
        (sendCount_eq_zero_iff hlt m).1 hzero hanswer
      rw [sendfileLoop_ok fuel hlt hk, if_neg hpos] at hret
      by_cases hmore : ((sent + sendCount (file.drop offset) total sent m : Nat) : Int) < total
      · refine ih ?_ hret
        rw [sentBefore, h]
        simp only [hk]
        rw [if_pos ⟨by omega, hmore⟩]
      · -- all of it has been sent, and the loop ends
        cases fuel with
        | zero => cases hret
        | succ fuel =>
          rw [sendfileLoop, if_pos (by omega)] at hret
          cases hret
          rw [took_sentFile_iff, length_take]
          omega
    | error e =>
      rw [hk] at hanswer
      rw [sendfileLoop_error fuel hlt hk] at hret
      cases e with
      | eintr =>
        refine ih ?_ hret
        rw [sentBefore, h]
        simp only [hk]
      | eagain =>
        obtain ⟨⟨fd, hfd⟩, hlen⟩ := hanswer
        rw [hfd] at hret
        cases hret
        exact (took_eagain_iff fd hlt).2 hlen
      | eexist => cases hret
      | enoent => cases hret
      | other code => cases hret

/-- A call of the loop that is not answered as it should be ends it with the wrong count. -/
theorem obliges_of_took (h : sentBefore k c.calls (file.drop offset) total i = some sent)
    (htook : ∀ fuel n c', c.sendfileLoop g k file total fuel offset total = (.returns n none, c') →
      Took c c' (file.drop offset) n) : Obliges k c.calls (file.drop offset) total i sent := by
  have hlt := sentBefore_lt h
  have hround := fun n c' => htook (1 + i) n c'
  rw [sendfileLoop_from h 1] at hround
  -- what has gone out is less than the count that is returned
  have hshort : ∀ j, ¬ Took c (c.sentFile (file.drop offset) j sent) (file.drop offset) total := by
    intro j
    rw [took_sentFile_iff, length_take]
    omega
  unfold Obliges
  cases hk : k.sendfile (c.calls + i) with
  | ok m =>
    by_contra hnot
    rw [sendfileLoop_ok 0 hlt hk, if_pos ((sendCount_eq_zero_iff hlt m).2 hnot)] at hround
    exact hshort _ (hround _ _ rfl)
  | error e =>
    rw [sendfileLoop_error 0 hlt hk] at hround
    cases e with
    | eagain =>
      cases hdup : k.dup (c.calls + i + 1) with
      | ok fd =>
        rw [hdup] at hround
        exact ⟨⟨fd, rfl⟩, (took_eagain_iff fd hlt).1 (hround _ _ rfl)⟩
      | error e =>
        rw [hdup] at hround
        exact absurd (hround _ _ rfl) (hshort _)
    | eintr => trivial
    | eexist => trivial
    | enoent => trivial
    | other code => trivial

theorem File.toSend_nonneg_iff (f : File) (remain : Int) :
    0 ≤ f.toSend remain ↔ f.offset ≤ f.size := by
  unfold File.toSend
  split <;> omega

theorem sendfileLoop_took_iff :
    (∀ fuel n c', c.sendfileLoop g k file total fuel offset total = (.returns n none, c') →
        Took c c' (file.drop offset) n) ↔
      0 ≤ total ∧ ∀ i sent, sentBefore k c.calls (file.drop offset) total i = some sent →
        Obliges k c.calls (file.drop offset) total i sent := by
  constructor
  · intro htook
    refine ⟨?_, fun i sent h => obliges_of_took h htook⟩
    by_contra hneg
    have hret : c.sendfileLoop g k file total 1 offset total = (.returns total none, c) := by
      rw [sendfileLoop, if_pos (by omega)]
    exact hneg (htook 1 total c hret).bounds.1
  · rintro ⟨hnonneg, hall⟩ fuel n c' hret
    by_cases hpos : 0 < total
    · have hstart : sentBefore k c.calls (file.drop offset) total 0 = some 0 := by
        rw [sentBefore, if_pos hpos]
      refine sendfileLoop_took (g := g) hall fuel hstart ?_
      rw [← sendfileLoop_from hstart]
      exact hret
    · cases fuel with
      | zero => cases hret
      | succ fuel =>
        rw [sendfileLoop, if_pos (by omega)] at hret
        cases hret
        exact ⟨[], [], by simp, by simp, nil_prefix, by simp; omega⟩

end Conn

theorem Conn.Sendfile_open {g : Engine} {k : Kernel} {c : Conn} {f : Conn.File}
    (hopen : c.closed = false)
    (hf : f.err = none) (fuel : Nat) (remain : Int) :
    c.Sendfile g k fuel (some f) remain =
      if c.writeList = [] then
        c.sendfileLoop g k f.contents (f.toSend remain) fuel f.offset (f.toSend remain)
      else
        match k.dup c.calls with
        | .ok fd =>
          (.returns (f.toSend remain) none, { c with calls := c.calls + 1 }.newToWriteFile fd
          f.offset (f.toSend remain) f.contents)
        | .error e => (.returns 0 (some (.errno e)), { c with calls := c.calls + 1 }) := by
  unfold Conn.Sendfile
  by_cases hempty : c.writeList = []
  · simp [hopen, hf, hempty]
  · have hne : c.writeList ≠ [] := hempty
    simp only [hopen, hf, if_neg hempty, if_pos hne, Conn.sysDup]
    cases k.dup c.calls <;> rfl

theorem Conn.countsRight_open {k : Kernel} {c : Conn} {f : Conn.File} (hopen : c.closed = false)
    (hf : f.err = none) (remain : Int) :
    Conn.CountsRight k c (some f) remain ↔
      if c.writeList = [] then
        0 ≤ f.toSend remain ∧ ∀ i sent,
          Conn.sentBefore k c.calls f.rest (f.toSend remain) i = some sent →
            Conn.Obliges k c.calls f.rest (f.toSend remain) i sent
      else
        (∃ fd, k.dup c.calls = .ok fd) → 0 ≤ f.toSend remain ∧ f.toSend remain ≤ f.rest.length := by
  rw [Conn.CountsRight, hopen, hf, f.toSend_nonneg_iff remain]
  simp

/-- The count that `Sendfile` returns without an error is the number of bytes that it has sent or
queued, and these are the bytes of the file from where it stands, exactly if every call of
`sendfile(2)` that it makes sends something or fails, with the descriptor duplicated and the file
long enough where it would block, and the file does not stand behind its end. -/
theorem sendfile_reports_iff (g : Engine) (k : Kernel) (c : Conn) (f : Option Conn.File)
    (remain : Int) : (∀ fuel n c', c.Sendfile g k fuel f remain = (.returns n none, c') →
        Conn.Took c c' ((f.map Conn.File.rest).getD []) n) ↔ Conn.CountsRight k c f remain := by
  cases f with
  | none =>
    refine iff_of_true ?_ trivial
    intro fuel n c' hret
    cases hret
    exact ⟨[], [], by simp, by simp, nil_prefix, rfl⟩
  | some f =>
    cases hclosed : c.closed with
    | true =>
      refine iff_of_true ?_ (.inl hclosed)
      intro fuel n c' hret
      rw [Conn.Sendfile, if_pos hclosed] at hret
      cases hret
    | false =>
      cases herr : f.err with
      | some e =>
        refine iff_of_true ?_ (.inr (.inl (by rw [herr]; exact Option.some_ne_none e)))
        intro fuel n c' hret
        simp [Conn.Sendfile, hclosed, herr] at hret
      | none =>
        rw [Conn.countsRight_open hclosed herr]
        simp only [Conn.Sendfile_open hclosed herr]
        by_cases hempty : c.writeList = []
        · simp only [if_pos hempty]
          exact Conn.sendfileLoop_took_iff
        · simp only [if_neg hempty]
          cases hdup : k.dup c.calls with
          | error e => exact iff_of_true (fun _ _ _ hret => by cases hret) (fun h => by simp at h)
          | ok fd =>
            constructor
            · intro htook
              exact fun _ => (Conn.took_file_iff fd).1 (htook 0 _ _ rfl)
            · rintro hcond fuel n c' hret
              cases hret
              exact (Conn.took_file_iff fd).2 (hcond ⟨fd, rfl⟩)

/-- A kernel that sends two bytes of a file, then would block, and has no descriptor left. -/
def fullKernel : Kernel :=
  { write := fun _ => .error .eagain
    sendto := fun _ => none
    sendfile := fun i => if i = 0 then .ok 2 else .error .eagain
    dup := fun _ => .error (.other 24)
    epollCtl := fun _ => none }

/-- Two bytes are sent and four reported when the descriptor cannot be duplicated; so are all the
bytes of a file that has been cut since its size was read; and behind the end of a file the count is
negative. -/
theorem sendfile_overreports :
    let full :=
      (newConn 7 .tcp).Sendfile plainEngine fullKernel 2 (some ⟨0, 4, ascii "file", none⟩) 0
    let cut := (newConn 7 .tcp).Sendfile plainEngine shortKernel 2 (some ⟨0, 4, ascii "fi", none⟩) 0
    let behind :=
      (newConn 7 .tcp).Sendfile plainEngine shortKernel 1 (some ⟨6, 4, ascii "file", none⟩) 0
    (full.1 = .returns 4 none ∧ full.2.accepted = ascii "fi" ∧ full.2.writeList = []) ∧
      (cut.1 = .returns 4 none ∧ cut.2.accepted = ascii "fi" ∧ cut.2.writeList = []) ∧
      (behind.1 = .returns (-2) none ∧ behind.2.accepted = [] ∧ behind.2.writeList = []) := by
  decide

end Nbio.Net
