import Nbio.Net.Conn

/-!
# Nothing is lost, doubled or reordered on the way to the socket

The stream of a connection is what the kernel has accepted followed by what is pending in the
list of what is to be written.  `Write` and `Sendfile` extend it by their data, `flush` only
moves bytes from its second part to its first, and so in every run of these calls, whatever the
kernel answers, the stream is the data of the calls that reported success.
-/

namespace Nbio.Net

open Nbio.Go List

def ToWrite.pending (t : ToWrite) : Bytes :=
  match t.buf with
  | some b => b.data.drop t.offset
  | none => (t.file.drop t.offset).take t.remain.toNat

/-- A buffer entry has no descriptor and an offset within its buffer. -/
def ToWrite.WF (t : ToWrite) : Prop := ∀ b, t.buf = some b → t.fd = 0 ∧ t.offset ≤ b.data.length

namespace Conn

def pending (c : Conn) : Bytes := c.writeList.flatMap ToWrite.pending

/-- The bytes accepted by the kernel, and then those that wait. -/
def stream (c : Conn) : Bytes := c.accepted ++ c.pending

structure WF (c : Conn) : Prop where
  isStream : c.typ.isStream = true
  entries : ∀ t ∈ c.writeList, t.WF

/-- The parts of a connection that its stream depends on are the same. -/
structure SameData (c c' : Conn) : Prop where
  typ : c'.typ = c.typ
  closed : c'.closed = c.closed
  writeList : c'.writeList = c.writeList
  accepted : c'.accepted = c.accepted

variable {g : Engine} {k : Kernel} {c c' : Conn}

theorem SameData.stream (h : SameData c c') : c'.stream = c.stream := by
  rw [Conn.stream, Conn.stream, pending, pending, h.accepted, h.writeList]

theorem SameData.wf (h : SameData c c') (hc : c.WF) : c'.WF where
  isStream := by rw [h.typ]; exact hc.isStream
  entries := by rw [h.writeList]; exact hc.entries

/-- `c'` differs from `c` at most in its registration, its timer and the number of system calls. -/
def Registers (c c' : Conn) : Prop :=
  ∃ calls isWAdded wTimer epoll, c' = { c with
    calls := calls, isWAdded := isWAdded, wTimer := wTimer, epoll := epoll }

theorem Registers.refl (c : Conn) : Registers c c := ⟨_, _, _, _, rfl⟩

theorem Registers.same (h : Registers c c') : SameData c c' := by
  obtain ⟨_, _, _, _, rfl⟩ := h
  exact ⟨rfl, rfl, rfl, rfl⟩

theorem epollMod_registers (i : Interest) : Registers c (c.epollMod k i).2 := by
  unfold epollMod
  split <;> exact ⟨_, _, _, _, rfl⟩

theorem pollerModWrite_registers : Registers c (c.pollerModWrite g k).2 := by
  unfold pollerModWrite
  split
  · exact .refl c
  · exact epollMod_registers _

theorem modWrite_registers : Registers c (c.modWrite g k) := by
  unfold modWrite
  split
  · exact pollerModWrite_registers
  · exact .refl c

theorem resetRead_registers : Registers c (c.resetRead g k) := by
  unfold resetRead pollerResetRead
  repeat' split
  · exact ⟨_, _, _, _, rfl⟩
  · exact epollMod_registers .read
  · exact .refl c

theorem settle_registers : Registers c (c.settle g k) := by
  unfold settle
  split
  · exact ⟨_, _, _, _, rfl⟩
  · exact modWrite_registers

theorem reportWritten_same (n : Nat) : SameData c (c.reportWritten g n) := by
  unfold reportWritten
  split <;> exact ⟨rfl, rfl, rfl, rfl⟩

/-! ## Queueing -/

theorem copy_malloc (a : Allocator) (src : Bytes) :
    ((a.malloc src.length).copy src).data = src := by
  simp [Buffer.copy, Allocator.malloc]

theorem copy_reslice_malloc (a : Allocator) (src : Bytes) (n : Nat) :
    (((a.malloc (src.length + n)).reslice src.length).copy src).data = src := by
  simp [Buffer.copy, Buffer.reslice, Allocator.malloc]

theorem append_data (a : Allocator) (b : Buffer) (more : Bytes) :
    (a.append b more).data = b.data ++ more := by
  unfold Allocator.append
  split <;> rfl

structure Queues (c c' : Conn) (data : Bytes) : Prop where
  wf : c.WF → c'.WF
  closed : c'.closed = c.closed
  accepted : c'.accepted = c.accepted
  pending : c.WF → c'.pending = c.pending ++ data

theorem Queues.stream {data : Bytes} (h : Queues c c' data) (hc : c.WF) :
    c'.stream = c.stream ++ data := by
  rw [Conn.stream, Conn.stream, h.accepted, h.pending hc, append_assoc]

theorem queues_entry {t : ToWrite} (ht : t.WF) (h : c'.writeList = c.writeList ++ [t])
    (htyp : c'.typ = c.typ) (hclosed : c'.closed = c.closed) (hacc : c'.accepted = c.accepted) :
    Queues c c' t.pending where
  wf hc := by
    refine ⟨by rw [htyp]; exact hc.isStream, ?_⟩
    rw [h]
    intro t' ht'
    rcases mem_append.1 ht' with hmem | hmem
    · exact hc.entries t' hmem
    · rw [mem_singleton.1 hmem]
      exact ht
  closed := hclosed
  accepted := hacc
  pending hc := by
    rw [Conn.pending, h]
    simp [Conn.pending]

theorem newToWriteBuf_cases (g : Engine) (c : Conn) (buf : Bytes) :
    (∃ b, b.data = buf ∧ c.newToWriteBuf g buf = { c with
      left := c.left + buf.length, queued := c.queued + 1
      writeList := c.writeList ++ [⟨c.queued, 0, some b, 0, 0, []⟩] }) ∨
    ∃ init tail b b', c.writeList = init ++ [tail] ∧ tail.buf = some b ∧ b'.data = b.data ++ buf ∧
      c.newToWriteBuf g buf = { c with
        left := c.left + buf.length, writeList := init ++ [{ tail with buf := some b' }] } := by
  unfold newToWriteBuf
  cases hlast : c.writeList.getLast? with
  | none =>
    simp only [hlast]
    exact .inl ⟨_, copy_malloc _ _, rfl⟩
  | some tail =>
    obtain ⟨init, hlist⟩ := List.getLast?_eq_some_iff.1 hlast
    simp only [hlast]
    cases hbuf : tail.buf with
    | none => exact .inl ⟨_, copy_malloc _ _, rfl⟩
    | some b =>
      simp only
      split
      · exact .inl ⟨_, copy_malloc _ _, rfl⟩
      · refine .inr ⟨init, tail, b, _, hlist, hbuf, ?_, by rw [hlist, dropLast_concat]⟩
        rw [append_data]
        congr 1
        split
        · exact copy_reslice_malloc _ _ _
        · rfl

theorem queues_merged {init : List ToWrite} {tail : ToWrite} {b b' : Buffer} {buf : Bytes}
    (hlist : c.writeList = init ++ [tail]) (hb : tail.buf = some b)
    (hdata : b'.data = b.data ++ buf)
    (h : c'.writeList = init ++ [{ tail with buf := some b' }]) (htyp : c'.typ = c.typ)
    (hclosed : c'.closed = c.closed) (hacc : c'.accepted = c.accepted) : Queues c c' buf where
  wf hc := by
    refine ⟨by rw [htyp]; exact hc.isStream, ?_⟩
    have hentries := hc.entries
    rw [hlist] at hentries
    rw [h]
    intro t' ht'
    rcases mem_append.1 ht' with hmem | hmem
    · exact hentries t' (mem_append_left _ hmem)
    · obtain ⟨hfd, hoff⟩ := hentries tail (by simp) b hb
      rw [mem_singleton.1 hmem]
      rintro _ ⟨⟩
      exact ⟨hfd, by rw [hdata, length_append]; exact Nat.le_add_right_of_le hoff⟩
  closed := hclosed
  accepted := hacc
  pending hc := by
    have hoff := (hc.entries tail (by simp [hlist]) b hb).2
    rw [Conn.pending, Conn.pending, hlist, h]
    simp [ToWrite.pending, hb, hdata, drop_append_of_le_length hoff]

theorem newToWriteBuf_queues (buf : Bytes) : Queues c (c.newToWriteBuf g buf) buf := by
  obtain ⟨b, hb, heq⟩ | ⟨init, tail, b, b', hlist, hbuf, hdata, heq⟩ := newToWriteBuf_cases g c buf
  · have h : Queues c (c.newToWriteBuf g buf) _ := queues_entry
      (t := ⟨c.queued, 0, some b, 0, 0, []⟩) (by simp [ToWrite.WF]) (by rw [heq]) (by rw [heq])
        (by rw [heq]) (by rw [heq])
    simpa [ToWrite.pending, hb] using h
  · rw [heq]
    exact queues_merged hlist hbuf hdata rfl rfl rfl rfl

theorem newToWriteFile_queues (fd offset : Nat) (remain : Int) (file : Bytes) :
    Queues c (c.newToWriteFile fd offset remain file)
      ((file.drop offset).take remain.toNat) :=
  queues_entry (t := ⟨c.queued, fd, none, offset, remain, file⟩) (by simp [ToWrite.WF]) rfl
    rfl rfl rfl

/-! ## `Write` -/

/-- How `c'` follows `c` by a system call that takes `n` of the bytes `b`. -/
structure Sends (c c' : Conn) (b : Bytes) (n : Nat) : Prop where
  le : n ≤ b.length
  typ : c'.typ = c.typ
  closed : c'.closed = c.closed
  writeList : c'.writeList = c.writeList
  accepted : c'.accepted = c.accepted ++ b.take n

theorem Sends.trans_same {c'' : Conn} {b : Bytes} {n : Nat} (h : Sends c c' b n)
    (h' : SameData c' c'') : Sends c c'' b n :=
  ⟨h.le, h'.typ.trans h.typ, h'.closed.trans h.closed, h'.writeList.trans h.writeList,
    h'.accepted.trans h.accepted⟩

theorem Sends.wf {b : Bytes} {n : Nat} (h : Sends c c' b n) (hc : c.WF) : c'.WF where
  isStream := by rw [h.typ]; exact hc.isStream
  entries := by rw [h.writeList]; exact hc.entries

theorem sysWrite_sends (b : Bytes) : Sends c (c.sysWrite k b).2 b (c.sysWrite k b).1.1.toNat := by
  unfold sysWrite
  cases k.write c.calls with
  | ok n => exact ⟨Nat.min_le_right _ _, rfl, rfl, rfl, rfl⟩
  | error e => exact ⟨Nat.zero_le _, rfl, rfl, rfl, (append_nil _).symm⟩

theorem sysSendfile_sends (file : Bytes) (offset count : Nat) :
    Sends c (c.sysSendfile k file offset count).2 ((file.drop offset).take count)
      (c.sysSendfile k file offset count).1.1.toNat := by
  unfold sysSendfile
  cases k.sendfile c.calls with
  | ok n =>
    refine ⟨?_, rfl, rfl, rfl, ?_⟩
    · rw [length_take, length_drop]
      exact Nat.min_le_right _ _
    · simp only [take_take]
      congr 2
      omega
  | error e => exact ⟨Nat.zero_le _, rfl, rfl, rfl, (append_nil _).symm⟩

theorem doWrite_stream (hc : c.typ.isStream = true) (b : Bytes) :
    c.doWrite g k b = ((c.sysWrite k b).1,
      if 0 < (c.sysWrite k b).1.1 then (c.sysWrite k b).2.reportWritten g (c.sysWrite k b).1.1.toNat
      else (c.sysWrite k b).2) := by
  unfold doWrite
  cases htyp : c.typ with
  | tcp | unix => rfl
  | udpServer | udpClientFromDial | udpClientFromRead => simp [htyp, ConnType.isStream] at hc

theorem doWrite_sends (hc : c.WF) (b : Bytes) :
    Sends c (c.doWrite g k b).2 b (c.doWrite g k b).1.1.toNat := by
  have hsys := sysWrite_sends (k := k) (c := c) b
  rw [doWrite_stream hc.isStream]
  split
  · exact hsys.trans_same (reportWritten_same _)
  · exact hsys

theorem queueRest_spec {b : Bytes} {n : Int} (hsends : Sends c c' b n.toNat) (hc : c.WF)
    (hempty : c.writeList = []) :
    (c'.queueRest g n b).1.2 = none ∧ (c'.queueRest g n b).2.WF ∧
      (c'.queueRest g n b).2.closed = c.closed ∧
      (c'.queueRest g n b).2.stream = c.stream ++ b := by
  have hc' := hsends.wf hc
  have hstream : c'.stream = c.stream ++ b.take n.toNat := by
    simp [stream, pending, hsends.accepted, hsends.writeList, hempty]
  unfold queueRest
  by_cases hlt : n.toNat < b.length
  · have hq := newToWriteBuf_queues (g := g) (c := c') (b.drop n.toNat)
    simp only [if_pos (And.intro hlt hc'.isStream)]
    refine ⟨trivial, hq.wf hc', hq.closed.trans hsends.closed, ?_⟩
    rw [hq.stream hc', hstream, append_assoc, take_append_drop]
  · simp only [hlt, false_and, if_false]
    refine ⟨trivial, hc', hsends.closed, ?_⟩
    rw [hstream, take_of_length_le (Nat.le_of_not_lt hlt)]

theorem write_spec (hc : c.WF) (b : Bytes) :
    (c.write g k b).2.WF ∧ (c.write g k b).2.closed = c.closed ∧
      (((c.write g k b).1.2 = none ∧ (c.write g k b).2.stream = c.stream ++ b) ∨
        ∃ e, (c.write g k b).1.2 = some e ∧ e.isRetry = false) := by
  unfold write
  split
  · next hb => exact ⟨hc, rfl, .inl ⟨rfl, by rw [hb, append_nil]⟩⟩
  split
  · exact ⟨hc, rfl, .inr ⟨_, rfl, rfl⟩⟩
  split
  · next hempty =>
    have hsends := doWrite_sends (g := g) (k := k) hc b
    generalize c.doWrite g k b = r at hsends
    obtain ⟨⟨n, err⟩, c'⟩ := r
    obtain ⟨hnone, hwf, hclosed, hstream⟩ := queueRest_spec hsends hc hempty
    cases err with
    | none => exact ⟨hwf, hclosed, .inl ⟨hnone, hstream⟩⟩
    | some e =>
      cases hretry : e.isRetry with
      | true =>
        simp only [hretry]
        exact ⟨hwf, hclosed, .inl ⟨hnone, hstream⟩⟩
      | false =>
        simp only [hretry]
        exact ⟨hsends.wf hc, hsends.closed, .inr ⟨_, rfl, hretry⟩⟩
  · have hq := newToWriteBuf_queues (g := g) (c := c) b
    exact ⟨hq.wf hc, hq.closed, .inl ⟨rfl, hq.stream hc⟩⟩

theorem fail_closed (e : Err) : (c.fail e).closed = true := by
  simp only [fail, closeWithErrorWithoutLock]
  split <;> rfl

theorem closeWithError_closed (err : Option Err) : (c.closeWithError err).closed = true := by
  unfold closeWithError
  split
  · next h => exact h
  · simp only [closeWithErrorWithoutLock]
    split <;> rfl

theorem fail_wf (hc : c.WF) (e : Err) : (c.fail e).WF := by
  have hstream := hc.isStream
  constructor
  · simp only [fail, closeWithErrorWithoutLock]
    split <;> exact hstream
  · simp only [fail, closeWithErrorWithoutLock]
    split <;> simp

theorem Write_spec (hc : c.WF) (b : Bytes) :
    (c.Write g k b).2.WF ∧ ((c.Write g k b).2.closed = false →
      (c.Write g k b).1.2 = none ∧ (c.Write g k b).2.stream = c.stream ++ b) := by
  unfold Write
  cases hclosed : c.closed with
  | true =>
    rw [if_pos rfl]
    exact ⟨hc, fun hopen => by rw [hclosed] at hopen; cases hopen⟩
  | false =>
    obtain ⟨hwf, -, hspec⟩ := write_spec (g := g) (k := k) hc b
    simp only [Bool.false_eq_true, if_false, afterWrite]
    rcases hspec with ⟨hnone, hstream⟩ | ⟨e, herr, hretry⟩
    · simp only [hnone]
      exact ⟨settle_registers.same.wf hwf,
        fun _ => ⟨trivial, settle_registers.same.stream.trans hstream⟩⟩
    · simp only [herr, hretry, Bool.false_eq_true, if_false]
      refine ⟨fail_wf hwf e, fun hopen => ?_⟩
      rw [fail_closed] at hopen
      cases hopen

/-! ## `Sendfile` -/

/-- What a call with this data has done to the stream of a connection that is open. -/
inductive Taken (before after data : Bytes) : Outcome → Prop where
  | running (part : Bytes) (hpart : part <+: data) (h : after = before ++ part) :
    Taken before after data .running
  | panics (h : after = before) : Taken before after data .panics
  | returns (n : Int) (h : after = before ++ data) : Taken before after data (.returns n none)
  | fails (n : Int) (e : Err) (h : after = before) : Taken before after data (.returns n (some e))

/-- What is sent or queued of a file by a loop that has not met an error. -/
inductive SentFile (total : Int) (before after data : Bytes) : Outcome → Prop where
  | running (part : Bytes) (hpart : part <+: data) (h : after = before ++ part) :
    SentFile total before after data .running
  | returns (h : after = before ++ data) : SentFile total before after data (.returns total none)

theorem SentFile.taken {total : Int} {before after data : Bytes} {o : Outcome}
    (h : SentFile total before after data o) : Taken before after data o := by
  cases h with
  | running part hpart h => exact .running part hpart h
  | returns h => exact .returns total h

theorem SentFile.prepend {total : Int} {before after first rest : Bytes} {o : Outcome}
    (h : SentFile total (before ++ first) after rest o) :
    SentFile total before after (first ++ rest) o := by
  cases h with
  | running part hpart h =>
    exact .running (first ++ part) (prefix_append_right_inj first |>.2 hpart)
      (by rw [h, append_assoc])
  | returns h => exact .returns (by rw [h, append_assoc])

theorem file_split (file : Bytes) (offset : Nat) {remain : Int} {n : Nat} (h : n ≤ remain.toNat) :
    (file.drop offset).take remain.toNat =
      (file.drop offset).take n ++ (file.drop (offset + n)).take (remain - n).toNat := by
  have hsub : (remain - n).toNat = remain.toNat - n := by omega
  have htake : (file.drop offset).take n = ((file.drop offset).take remain.toNat).take n := by
    rw [take_take, Nat.min_eq_left h]
  rw [hsub, ← drop_drop, ← drop_take, htake]
  exact (take_append_drop n _).symm

variable {file : Bytes} {offset : Nat} {remain : Int}

theorem sysSendfile_pos (hpos : ∀ i, k.sendfile i ≠ .ok 0) (c : Conn) {count : Nat}
    (hcount : 0 < count) (hlt : offset < file.length) :
    ¬ ((c.sysSendfile k file offset count).1.1 = 0 ∧
      (c.sysSendfile k file offset count).1.2 = none) := by
  unfold sysSendfile
  cases hn : k.sendfile c.calls with
  | error e => simp
  | ok n =>
    have hne : n ≠ 0 := by
      rintro rfl
      exact hpos _ hn
    simp only [and_true]
    omega

theorem sendfileLoop_spec (hpos : ∀ i, k.sendfile i ≠ .ok 0)
    (hdup : ∀ i, ∃ fd, k.dup i = .ok fd) (total : Int) (fuel : Nat) (hc : c.WF)
    (hempty : c.writeList = []) (hin : remain ≤ (file.length : Int) - offset) :
    let r := c.sendfileLoop g k file total fuel offset remain
    r.2.WF ∧ (r.2.closed = false →
      SentFile total c.stream r.2.stream ((file.drop offset).take remain.toNat) r.1) := by
  induction fuel generalizing c offset remain with
  | zero => exact ⟨hc, fun _ => .running [] nil_prefix (append_nil _).symm⟩
  | succ fuel ih =>
    unfold sendfileLoop
    by_cases hdone : remain ≤ 0
    · rw [if_pos hdone]
      refine ⟨hc, fun _ => .returns ?_⟩
      rw [Int.toNat_of_nonpos hdone, take_zero, append_nil]
    rw [if_neg hdone]
    have hcount : 0 < min maxSendfileSize remain.toNat := by
      rw [maxSendfileSize]
      omega
    have hsome := sysSendfile_pos hpos c hcount (show offset < file.length by omega)
    have hsends := sysSendfile_sends (k := k) (c := c) file offset
      (min maxSendfileSize remain.toNat)
    generalize c.sysSendfile k file offset (min maxSendfileSize remain.toNat) = r at hsome hsends
    obtain ⟨⟨n, err⟩, c₁⟩ := r
    simp only [if_neg hsome]
    dsimp only at hsends
    have hc₁ := hsends.wf hc
    have hempty₁ := hsends.writeList.trans hempty
    have hle : n.toNat ≤ min maxSendfileSize remain.toNat :=
      hsends.le.trans (length_take_le _ _)
    have hle' : n.toNat ≤ remain.toNat := hle.trans (Nat.min_le_right _ _)
    have hstream : c₁.stream = c.stream ++ (file.drop offset).take n.toNat := by
      have hacc := hsends.accepted
      rw [take_take, Nat.min_eq_left hle] at hacc
      simp [stream, pending, hacc, hempty, hempty₁]
    have hin' : remain - n.toNat ≤ (file.length : Int) - ↑(offset + n.toNat) := by omega
    rw [file_split file offset hle']
    -- the loop goes on behind what was sent
    have hnext := ih hc₁ hempty₁ hin'
    rw [hstream] at hnext
    cases err with
    | none => exact ⟨hnext.1, fun hopen => (hnext.2 hopen).prepend⟩
    | some e =>
      cases e with
      | eintr => exact ⟨hnext.1, fun hopen => (hnext.2 hopen).prepend⟩
      | eagain =>
        obtain ⟨fd, hfd⟩ := hdup c₁.calls
        simp only [sysDup, hfd]
        have hq := newToWriteFile_queues (c := { c₁ with calls := c₁.calls + 1 }) fd
          (offset + n.toNat) (remain - n.toNat) file
        have hc₂ : { c₁ with calls := c₁.calls + 1 }.WF := ⟨hc₁.isStream, hc₁.entries⟩
        refine ⟨modWrite_registers.same.wf (hq.wf hc₂), fun _ => .prepend (.returns ?_)⟩
        rw [modWrite_registers.same.stream, hq.stream hc₂, ← hstream]
        rfl
      | eexist => exact ⟨fail_wf hc₁ _, fun hopen => by rw [fail_closed] at hopen; cases hopen⟩
      | enoent => exact ⟨fail_wf hc₁ _, fun hopen => by rw [fail_closed] at hopen; cases hopen⟩
      | other code =>
        exact ⟨fail_wf hc₁ _, fun hopen => by rw [fail_closed] at hopen; cases hopen⟩

def fileData (f : Option File) (remain : Int) : Bytes :=
  match f with
  | none => []
  | some f => (f.contents.drop f.offset).take (f.toSend remain).toNat

theorem File.toSend_le (f : File) (remain : Int) :
    f.toSend remain ≤ (f.size : Int) - f.offset := by
  unfold File.toSend
  split <;> omega

theorem Sendfile_spec (hpos : ∀ i, k.sendfile i ≠ .ok 0) (hdup : ∀ i, ∃ fd, k.dup i = .ok fd)
    (fuel : Nat) (hc : c.WF) {f : Option File} (remain : Int)
    (hsize : ∀ f', f = some f' → f'.size = f'.contents.length) :
    let r := c.Sendfile g k fuel f remain
    r.2.WF ∧ (r.2.closed = false → Taken c.stream r.2.stream (fileData f remain) r.1) := by
  unfold Sendfile
  cases f with
  | none => exact ⟨hc, fun _ => .returns _ (append_nil _).symm⟩
  | some f =>
    simp only
    split
    · exact ⟨hc, fun _ => .fails _ _ rfl⟩
    cases f.err with
    | some e => exact ⟨hc, fun _ => .fails _ _ rfl⟩
    | none =>
      simp only
      split
      · obtain ⟨fd, hfd⟩ := hdup c.calls
        simp only [sysDup, hfd]
        have hq := newToWriteFile_queues (c := { c with calls := c.calls + 1 }) fd f.offset
          (f.toSend remain) f.contents
        have hc₁ : { c with calls := c.calls + 1 }.WF := ⟨hc.isStream, hc.entries⟩
        exact ⟨hq.wf hc₁, fun _ => .returns _ (hq.stream hc₁)⟩
      · next hempty =>
        have hin := f.toSend_le remain
        rw [hsize f rfl] at hin
        obtain ⟨hwf, hsent⟩ := sendfileLoop_spec hpos hdup (f.toSend remain) fuel hc
          (Decidable.not_not.1 hempty) hin
        exact ⟨hwf, fun hopen => (hsent hopen).taken⟩

/-! ## `flush` -/

/-- How `c'` follows `c` by an iteration of the loop in `flush`. -/
structure Flushes (c c' : Conn) : Prop where
  wf : c'.WF
  closed : c'.closed = c.closed
  stream : c'.stream = c.stream

variable {c₁ : Conn} {head : ToWrite} {rest : List ToWrite} {b : Bytes} {n : Nat}

theorem Sends.flushes (h : Sends c c₁ b n) (hc : c.WF) (hlist : c.writeList = head :: rest)
    (hb : head.pending = b) (l : List ToWrite)
    (hnew : l.flatMap ToWrite.pending = b.drop n ++ rest.flatMap ToWrite.pending)
    (hentries : ∀ t ∈ l, t.WF) (hsame : SameData { c₁ with writeList := l } c') :
    Flushes c c' where
  wf := hsame.wf ⟨by rw [h.typ]; exact hc.isStream, hentries⟩
  closed := hsame.closed.trans h.closed
  stream := by
    rw [hsame.stream, Conn.stream, Conn.stream, pending, pending, hnew, hlist, h.accepted,
      flatMap_cons, hb, append_assoc, ← append_assoc (b.take n), take_append_drop]

theorem Sends.flushes_zero (h : Sends c c₁ b 0) (hc : c.WF) : Flushes c c₁ where
  wf := h.wf hc
  closed := h.closed
  stream := by
    rw [Conn.stream, Conn.stream, pending, pending, h.writeList, h.accepted, take_zero, append_nil]

section

variable (hc : c.WF) (hlist : c.writeList = head :: rest)

include hc hlist

theorem WF.tail : ∀ t ∈ rest, t.WF := by
  intro t ht
  exact hc.entries t (by rw [hlist]; exact mem_cons_of_mem _ ht)

theorem writeBuffer_flushes {buf : Buffer} (hb : head.buf = some buf) :
    Flushes c (c.writeBuffer g k head buf rest).2 := by
  have hhead := hc.entries head (by rw [hlist]; exact mem_cons_self) buf hb
  have hpending : head.pending = buf.data.drop head.offset := by rw [ToWrite.pending, hb]
  have hsends := sysWrite_sends (k := k) (c := c) (buf.data.drop head.offset)
  unfold writeBuffer
  dsimp only
  generalize c.sysWrite k (buf.data.drop head.offset) = r at hsends
  obtain ⟨⟨m, err⟩, c₁⟩ := r
  dsimp only at hsends ⊢
  have hreport := reportWritten_same (g := g) (c := c₁) m.toNat
  split
  · split
    · next hall =>
      refine hsends.flushes hc hlist hpending rest ?_ (hc.tail hlist)
        ⟨hreport.typ, hreport.closed, rfl, hreport.accepted⟩
      rw [← hall, drop_length, nil_append]
    · refine hsends.flushes hc hlist hpending
        ({ head with offset := head.offset + m.toNat } :: rest) ?_ ?_
        ⟨hreport.typ, hreport.closed, rfl, hreport.accepted⟩
      · simp [ToWrite.pending, hb]
      · intro t ht
        rcases mem_cons.1 ht with rfl | ht
        · rintro buf' hbuf'
          have heq : buf = buf' := Option.some.inj (hb.symm.trans hbuf')
          have hle := hsends.le
          rw [length_drop] at hle
          subst heq
          exact ⟨hhead.1, by dsimp only; omega⟩
        · exact hc.tail hlist t ht
  · next hneg =>
    rw [Int.toNat_of_nonpos (Int.not_lt.1 hneg)] at hsends
    exact hsends.flushes_zero hc

theorem writeFile_flushes (hb : head.buf = none) : Flushes c (c.writeFile g k head rest).2 := by
  have hpending : head.pending = (head.file.drop head.offset).take head.remain.toNat := by
    rw [ToWrite.pending, hb]
  have hsends := sysSendfile_sends (k := k) (c := c) head.file head.offset head.remain.toNat
  unfold writeFile
  generalize c.sysSendfile k head.file head.offset head.remain.toNat = r at hsends
  obtain ⟨⟨m, err⟩, c₁⟩ := r
  dsimp only at hsends ⊢
  have hreport := reportWritten_same (g := g) (c := c₁) m.toNat
  split
  · split
    · next hdone =>
      refine hsends.flushes hc hlist hpending rest ?_ (hc.tail hlist)
        ⟨hreport.typ, hreport.closed, rfl, hreport.accepted⟩
      rw [drop_of_length_le, nil_append]
      rw [length_take]
      omega
    · refine hsends.flushes hc hlist hpending
        ({ head with
          remain := head.remain - m.toNat, offset := head.offset + m.toNat } :: rest) ?_ ?_
        ⟨hreport.typ, hreport.closed, rfl, hreport.accepted⟩
      · have hsub : (head.remain - m.toNat).toNat = head.remain.toNat - m.toNat := by omega
        simp only [flatMap_cons, ToWrite.pending, hb, hsub, drop_take, drop_drop]
      · intro t ht
        rcases mem_cons.1 ht with rfl | ht
        · rintro buf hbuf
          rw [hb] at hbuf
          cases hbuf
        · exact hc.tail hlist t ht
  · next hneg =>
    rw [Int.toNat_of_nonpos (Int.not_lt.1 hneg)] at hsends
    exact hsends.flushes_zero hc

theorem flushHead_flushes {r : Option Errno × Conn} (h : c.flushHead g k head rest = some r) :
    Flushes c r.2 := by
  unfold flushHead at h
  split at h
  · cases hb : head.buf with
    | none => rw [hb] at h; cases h
    | some buf =>
      rw [hb] at h
      cases h
      exact writeBuffer_flushes hc hlist hb
  · next hfd =>
    have hb : head.buf = none := by
      cases hb : head.buf with
      | none => rfl
      | some buf =>
        exact absurd (hc.entries head (by rw [hlist]; exact mem_cons_self) buf hb).1 hfd
    split at h
    · cases h
      exact writeFile_flushes hc hlist hb
    · cases h
      exact ⟨hc, rfl, rfl⟩

end

theorem flushLoop_spec (fuel : Nat) (hc : c.WF) :
    let r := c.flushLoop g k fuel
    r.2.WF ∧ (r.2.closed = false → r.2.stream = c.stream) := by
  induction fuel generalizing c with
  | zero => exact ⟨hc, fun _ => rfl⟩
  | succ fuel ih =>
    unfold flushLoop
    cases hlist : c.writeList with
    | nil => exact ⟨resetRead_registers.same.wf hc, fun _ => resetRead_registers.same.stream⟩
    | cons head rest =>
      simp only
      cases hr : c.flushHead g k head rest with
      | none => exact ⟨hc, fun _ => rfl⟩
      | some r =>
        obtain ⟨err, c₁⟩ := r
        obtain ⟨hwf, hclosed, hstream⟩ := flushHead_flushes hc hlist hr
        obtain ⟨hwf', hstream'⟩ := ih hwf
        have hnext : _ → _ := fun hopen => (hstream' hopen).trans hstream
        have hfail : ∀ e, (c₁.fail e).WF ∧
            ((c₁.fail e).closed = false → (c₁.fail e).stream = c.stream) := by
          intro e
          refine ⟨fail_wf hwf e, fun hopen => ?_⟩
          rw [fail_closed] at hopen
          cases hopen
        cases err with
        | none => exact ⟨hwf', hnext⟩
        | some e =>
          cases e with
          | eintr => exact ⟨hwf', hnext⟩
          | eagain =>
            simp only
            split
            · exact ⟨pollerModWrite_registers.same.wf hwf,
                fun _ => pollerModWrite_registers.same.stream.trans hstream⟩
            · exact ⟨hwf, fun _ => hstream⟩
          | eexist => exact hfail _
          | enoent => exact hfail _
          | other code => exact hfail _

theorem flush_spec (fuel : Nat) (hc : c.WF) :
    let r := c.flush g k fuel
    r.2.WF ∧ (r.2.closed = false → r.2.stream = c.stream) := by
  unfold flush
  split
  · exact ⟨hc, fun _ => rfl⟩
  split
  · exact ⟨hc, fun _ => rfl⟩
  · exact flushLoop_spec fuel hc

end Conn

/-! ## Runs -/

open Conn

/-- A call on a connection; `fuel` bounds the iterations for which it is followed. -/
inductive Call where
  | write (b : Bytes)
  | sendfile (f : Option File) (remain : Int) (fuel : Nat)
  | flush (fuel : Nat)
deriving DecidableEq, Repr

namespace Call

def data : Call → Bytes
  | .write b => b
  | .sendfile f remain _ => fileData f remain
  | .flush _ => []

def exec (g : Engine) (k : Kernel) (c : Conn) : Call → Outcome × Conn
  | .write b =>
    let (r, c) := c.Write g k b
    (.returns r.1 r.2, c)
  | .sendfile f remain fuel => c.Sendfile g k fuel f remain
  | .flush fuel => c.flush g k fuel

def FileKept : Call → Prop
  | .sendfile (some f) _ _ => f.size = f.contents.length
  | _ => True

end Call

/-- A moment of a run: the connection, the data of the calls that have reported success, and the
call in progress if there is one. -/
structure Moment where
  conn : Conn
  reported : Bytes
  current : Option Call
deriving DecidableEq, Repr

def Moment.inProgress (m : Moment) : Bytes := (m.current.map Call.data).getD []

/-- The calls are made one after the other; the last of them may be in progress. -/
def run (g : Engine) (k : Kernel) (c : Conn) (reported : Bytes) : List Call → Moment
  | [] => ⟨c, reported, none⟩
  | call :: calls =>
    match call.exec g k c with
    | (.returns _ none, c) => run g k c (reported ++ call.data) calls
    | (.returns _ (some _), c) => run g k c reported calls
    | (_, c) => ⟨c, reported, some call⟩

variable {g : Engine} {k : Kernel} {c : Conn}

theorem Call.exec_spec (hpos : ∀ i, k.sendfile i ≠ .ok 0) (hdup : ∀ i, ∃ fd, k.dup i = .ok fd)
    (hc : c.WF) {call : Call} (hfile : call.FileKept) :
    let r := call.exec g k c
    r.2.WF ∧ (r.2.closed = false → Taken c.stream r.2.stream call.data r.1) := by
  cases call with
  | write b =>
    obtain ⟨hwf, hspec⟩ := Write_spec hc b
    refine ⟨hwf, fun hopen => ?_⟩
    obtain ⟨hnone, hstream⟩ := hspec hopen
    simp only [exec, hnone]
    exact .returns _ hstream
  | sendfile f remain fuel =>
    refine Sendfile_spec hpos hdup fuel hc remain ?_
    rintro f' rfl
    exact hfile
  | flush fuel =>
    obtain ⟨hwf, hspec⟩ := flush_spec fuel hc
    refine ⟨hwf, fun hopen => ?_⟩
    have hstream := hspec hopen
    have hsame : (c.flush g k fuel).2.stream = c.stream ++ [] := by
      rw [hstream, append_nil]
    change Taken _ (c.flush g k fuel).2.stream _ (c.flush g k fuel).1
    cases hr : (c.flush g k fuel).1 with
    | running => exact .running [] nil_prefix hsame
    | panics => exact .panics hstream
    | returns n err =>
      cases err with
      | none => exact .returns n hsame
      | some e => exact .fails n e hstream

theorem Call.exec_closed {call : Call} (h : c.closed = true) :
    (call.exec g k c).2.closed = true := by
  cases call with
  | write b => simp [exec, Write, h]
  | sendfile f remain fuel => cases f <;> simp [exec, Sendfile, h]
  | flush fuel => simp [exec, Conn.flush, h]

theorem run_closed (h : c.closed = true) (reported : Bytes) (calls : List Call) :
    (run g k c reported calls).conn.closed = true := by
  induction calls generalizing c reported with
  | nil => exact h
  | cons call calls ih =>
    have hclosed := call.exec_closed (g := g) (k := k) h
    unfold run
    generalize call.exec g k c = r at hclosed
    split
    · exact ih hclosed _
    · exact ih hclosed _
    · exact hclosed

theorem open_of_run {calls : List Call} {reported : Bytes}
    (hopen : (run g k c reported calls).conn.closed = false) : c.closed = false := by
  by_contra hclosed
  rw [Bool.not_eq_false] at hclosed
  exact Bool.false_ne_true (hopen.symm.trans (run_closed hclosed _ _))

theorem exec_open_of_run {call : Call} {calls : List Call} {reported : Bytes}
    (hopen : (run g k c reported (call :: calls)).conn.closed = false) :
    (call.exec g k c).2.closed = false := by
  unfold run at hopen
  split at hopen
  · next h =>
    rw [h]
    exact open_of_run hopen
  · next h =>
    rw [h]
    exact open_of_run hopen
  · next h =>
    rw [h]
    exact hopen

theorem run_stream (hpos : ∀ i, k.sendfile i ≠ .ok 0) (hdup : ∀ i, ∃ fd, k.dup i = .ok fd)
    (hc : c.WF) {calls : List Call} (hfiles : ∀ call ∈ calls, call.FileKept)
    (hopen : (run g k c c.stream calls).conn.closed = false) :
    ∃ part, part <+: (run g k c c.stream calls).inProgress ∧
      (run g k c c.stream calls).conn.stream = (run g k c c.stream calls).reported ++ part := by
  induction calls generalizing c with
  | nil => exact ⟨[], nil_prefix, (append_nil _).symm⟩
  | cons call calls ih =>
    have hfiles' := fun call' hmem => hfiles call' (mem_cons_of_mem _ hmem)
    obtain ⟨hwf, htaken⟩ :=
      Call.exec_spec hpos hdup hc (hfiles call mem_cons_self)
    have hopen₁ := exec_open_of_run hopen
    unfold run at hopen ⊢
    generalize call.exec g k c = r at hwf htaken hopen hopen₁
    obtain ⟨o, c₁⟩ := r
    cases htaken hopen₁ with
    | running part hpart h => exact ⟨part, hpart, h⟩
    | panics h => exact ⟨[], nil_prefix, by rw [append_nil]; exact h⟩
    | returns n h =>
      rw [← h] at hopen ⊢
      exact ih hwf hfiles' hopen
    | fails n e h =>
      rw [← h] at hopen ⊢
      exact ih hwf hfiles' hopen

/-- On a stream connection that has sent nothing before, at every moment of every run of
`Write`, `Sendfile` and `flush` that leaves it open, what the kernel has accepted followed by
what is pending is the data of the calls that have reported success, followed by what a
`Sendfile` in progress has sent already. -/
theorem stream_eq_reported (g : Engine) {k : Kernel} (hpos : ∀ i, k.sendfile i ≠ .ok 0)
    (hdup : ∀ i, ∃ fd, k.dup i = .ok fd) {c : Conn} (htyp : c.typ.isStream = true)
    (hnew : c.writeList = [] ∧ c.accepted = []) {calls : List Call}
    (hfiles : ∀ call ∈ calls, call.FileKept)
    (hopen : (run g k c [] calls).conn.closed = false) :
    ∃ part, part <+: (run g k c [] calls).inProgress ∧
      (run g k c [] calls).conn.accepted ++ (run g k c [] calls).conn.pending =
        (run g k c [] calls).reported ++ part := by
  have hc : c.WF := ⟨htyp, by rw [hnew.1]; simp⟩
  have hstream : c.stream = [] := by rw [stream, pending, hnew.1, hnew.2]; rfl
  rw [← hstream] at hopen ⊢
  exact run_stream hpos hdup hc hfiles hopen

def plainEngine : Engine :=
  { maxWriteBufferSize := 0, onWrittenSize := true, edgeTriggered := false, oneshot := false
    maxOpenFiles := 1024, bodyAllocator := ⟨id, fun _ => 0⟩ }

/-- A kernel that takes three bytes of the first `write` and nothing of the later ones. -/
def shortKernel : Kernel :=
  { write := fun i => if i = 0 then .ok 3 else .error .eagain
    sendto := fun _ => none
    sendfile := fun _ => .ok 2
    dup := fun _ => .ok 9
    epollCtl := fun _ => none }

theorem stream_eq_reported_short_write :
    let m := run plainEngine shortKernel (newConn 7 .tcp) []
      [.write (ascii "hello"), .sendfile (some ⟨1, 4, ascii "file", none⟩) 0 5, .flush 4]
    m.conn.closed = false ∧ m.conn.accepted = ascii "hel" ∧ m.reported = ascii "helloile" ∧
      ∃ part, part <+: m.inProgress ∧ m.conn.accepted ++ m.conn.pending = m.reported ++ part :=
  ⟨by decide, by decide, by decide,
    stream_eq_reported plainEngine (by intro i; simp [shortKernel]) (fun _ => ⟨9, rfl⟩) rfl
      ⟨rfl, rfl⟩ (by simp [Call.FileKept, ascii]) (by decide)⟩

end Nbio.Net
