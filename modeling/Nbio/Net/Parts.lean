import Nbio.Net.WriteStream

/-!
# The parts of a call

A call of the write path is a succession of parts (`Parts`): system calls, reports to
`onWrittenSize`, entries that are queued and, in `flush`, the first entry that gives up bytes or
is taken from the list.  Behind its parts a call changes the registration of the connection, or
fails and closes it (`Ending`).  What the parts of each call are is said here once, and what holds
of every part then holds of every call.
-/

namespace Nbio.Net

open Nbio.Go List

/-- The bytes of an entry that `left` counts: those in a buffer. -/
def ToWrite.bufferLeft (t : ToWrite) : Int :=
  match t.buf with
  | some b => (b.data.length : Int) - t.offset
  | none => 0

/-- Whether the kernel takes `n` bytes at once in call `i`. -/
def Kernel.takes (k : Kernel) (i n : Nat) : Bool :=
  match k.write i with
  | .ok m => n ≤ m
  | .error _ => false

/-- Whether none of the answers to `sendfile(2)` from call `i` on, up to the first that is not
`EINTR`, is a count above 0. -/
def Kernel.refuses (k : Kernel) (i : Nat) : Nat → Bool
  | 0 => true
  | fuel + 1 =>
    match k.sendfile i with
    | .ok n => n == 0
    | .error .eintr => k.refuses (i + 1) fuel
    | .error _ => true

namespace Conn

/-- An entry with a buffer has no descriptor, so that `flush` takes it for a buffer. -/
def Sorted (c : Conn) : Prop := ∀ t ∈ c.writeList, t.buf ≠ none → t.fd = 0

/-- How `c'` follows `c` by a part of a call that queues at most `queued` bytes in buffers, and
lets the bytes that were not reported grow by `sent`.  The last two are those of `flush`. -/
inductive Part (g : Engine) (c : Conn) : Bool → Conn → Nat → Int → Prop where
  | called {flushes : Bool} : Part g c flushes { c with calls := c.calls + 1 } 0 0
  | sent {flushes : Bool} (data : Bytes) :
    Part g c flushes { c with calls := c.calls + 1, accepted := c.accepted ++ data } 0 data.length
  | reported {flushes : Bool} (n : Nat) : Part g c flushes (c.reportWritten g n) 0 (-n)
  | queued {flushes : Bool} (b : Bytes) : Part g c flushes (c.newToWriteBuf g b) b.length 0
  | queuedFile {flushes : Bool} (fd offset : Nat) (remain : Int) (file : Bytes) :
    Part g c flushes (c.newToWriteFile fd offset remain file) 0 0
  | shrunk {head : ToWrite} {rest : List ToWrite} (head' : ToWrite) (n : Nat)
    (hlist : c.writeList = head :: rest) (hid : head'.id = head.id) (hbuf : head'.buf = head.buf)
    (hfd : head'.fd = head.fd)
    (hleft : c.Sorted → head'.bufferLeft + n = head.bufferLeft) :
    Part g c true { c with left := c.left - n, writeList := head' :: rest } 0 0
  | released {head : ToWrite} {rest : List ToWrite} (head' : ToWrite) (n : Nat)
    (hlist : c.writeList = head :: rest) (hid : head'.id = head.id)
    (hleft : c.Sorted → n = head.bufferLeft) :
    Part g c true { { c with left := c.left - n }.releaseToWrite head' with writeList := rest } 0 0

/-- How `c'` follows `c` by parts of a call, one after the other. -/
inductive Parts (g : Engine) (flushes : Bool) : Conn → Conn → Nat → Int → Prop where
  | refl (c : Conn) : Parts g flushes c c 0 0
  | part {c c' : Conn} {q : Nat} {u : Int} (h : Part g c flushes c' q u) : Parts g flushes c c' q u
  | trans {c c' c'' : Conn} {q q' : Nat} {u u' : Int} (h : Parts g flushes c c' q u)
    (h' : Parts g flushes c' c'' q' u') : Parts g flushes c c'' (q + q') (u + u')
  | mono {c c' : Conn} {q q' : Nat} {u : Int} (h : Parts g flushes c c' q u) (hle : q ≤ q') :
    Parts g flushes c c' q' u

/-- How a call that began with `c` and has come to `c₁` by its parts leaves the connection. -/
inductive Ending (g : Engine) (k : Kernel) (c c₁ : Conn) : Bool → Conn → Prop where
  | stays {flushes : Bool} (h : c₁.writeList ≠ [] → c.writeList ≠ []) : Ending g k c c₁ flushes c₁
  | settles : Ending g k c c₁ false (c₁.settle g k)
  | modWrite (h : c₁.writeList ≠ []) : Ending g k c c₁ false (c₁.modWrite g k)
  | resetRead (h : c₁.writeList = []) : Ending g k c c₁ true (c₁.resetRead g k)
  | rearms (h : g.isOneshot = true) : Ending g k c c₁ true (c₁.pollerModWrite g k).2
  | fails {flushes : Bool} (e : Err) : Ending g k c c₁ flushes (c₁.fail e)

def Made (g : Engine) (k : Kernel) (flushes : Bool) (c c' : Conn) (queued : Nat) (sent : Int) :
    Prop :=
  ∃ c₁, Parts g flushes c c₁ queued sent ∧ Ending g k c c₁ flushes c'

variable {g : Engine} {k : Kernel} {flushes : Bool} {c c' c'' : Conn}

variable {q : Nat} {u : Int}

theorem Parts.trans_same (h : Parts g flushes c c' q u) (h' : Parts g flushes c' c'' 0 0) :
    Parts g flushes c c'' q u := by
  have := h.trans h'
  rwa [Nat.add_zero, Int.add_zero] at this

theorem Parts.report {n : Nat} (h : Parts g flushes c c' q u) (hu : u = n) :
    Parts g flushes c (c'.reportWritten g n) q 0 := by
  have hr := h.trans (.part (.reported n))
  rwa [Nat.add_zero, hu, Int.add_right_neg] at hr

theorem Made.refl (c : Conn) : Made g k flushes c c 0 0 := ⟨c, .refl c, .stays id⟩

theorem Parts.fails (h : Parts g flushes c c' q u) (e : Err) :
    Made g k flushes c (c'.fail e) q u :=
  ⟨c', h, .fails e⟩

theorem Ending.registers {c₁ : Conn} (h : Ending g k c c₁ flushes c') :
    Registers c₁ c' ∨ ∃ e, c' = c₁.fail e := by
  cases h with
  | stays _ => exact .inl (.refl _)
  | settles => exact .inl settle_registers
  | modWrite _ => exact .inl modWrite_registers
  | resetRead _ => exact .inl resetRead_registers
  | rearms _ => exact .inl pollerModWrite_registers
  | fails e => exact .inr ⟨e, rfl⟩

theorem Made.then {u' : Int} (h : Made g k flushes c' c'' q u') (hparts : Parts g flushes c c' 0 u)
    (hlist : c'.writeList ≠ [] → c.writeList ≠ []) :
    Made g k flushes c c'' q (u + u') := by
  obtain ⟨c₁, hparts', hend⟩ := h
  have hall := hparts.trans hparts'
  rw [Nat.zero_add] at hall
  refine ⟨c₁, hall, ?_⟩
  cases hend with
  | stays hstays => exact .stays (hlist ∘ hstays)
  | settles => exact .settles
  | modWrite hne => exact .modWrite hne
  | resetRead hnil => exact .resetRead hnil
  | rearms honeshot => exact .rearms honeshot
  | fails e => exact .fails e

/-! ## System calls -/

theorem sysWrite_parts (g : Engine) (flushes : Bool) (b : Bytes) :
    Parts g flushes c (c.sysWrite k b).2 0 (c.sysWrite k b).1.1.toNat := by
  unfold sysWrite
  cases k.write c.calls with
  | ok n =>
    have h : Parts g flushes c _ _ _ := .part (.sent (b.take (min n b.length)))
    simpa using h
  | error e => exact .part .called

theorem sysSendfile_parts (g : Engine) (flushes : Bool) (file : Bytes) (offset count : Nat) :
    Parts g flushes c (c.sysSendfile k file offset count).2 0
      (c.sysSendfile k file offset count).1.1.toNat := by
  unfold sysSendfile
  cases k.sendfile c.calls with
  | ok n =>
    have h : Parts g flushes c _ _ _ :=
      .part (.sent ((file.drop offset).take (min n (min count (file.length - offset)))))
    have hlen : ((file.drop offset).take (min n (min count (file.length - offset)))).length =
        min n (min count (file.length - offset)) := by
      rw [length_take, length_drop]
      omega
    rwa [hlen] at h
  | error e => exact .part .called

theorem sysSendto_parts (b : Bytes) : Parts g false c (c.sysSendto k b).2 0
    (if (c.sysSendto k b).1 = none then b.length else 0) := by
  unfold sysSendto
  cases k.sendto c.calls with
  | none => exact .part (.sent b)
  | some e => exact .part .called

/-! ## `Write` and `Writev` -/

theorem doWrite_parts (b : Bytes) : Parts g false c (c.doWrite g k b).2 0 0 := by
  have hreport : ∀ (r : (Int × Option Errno) × Conn), Parts g false c r.2 0 r.1.1.toNat →
      Parts g false c (if 0 < r.1.1 then r.2.reportWritten g r.1.1.toNat else r.2) 0 0 := by
    intro r hr
    split
    · exact hr.report rfl
    · next hneg =>
      rw [Int.toNat_of_nonpos (Int.not_lt.1 hneg)] at hr
      exact hr
  refine hreport _ ?_
  cases c.typ with
  | tcp => exact sysWrite_parts g false b
  | unix => exact sysWrite_parts g false b
  | udpServer => exact .refl c
  | udpClientFromDial => exact sysWrite_parts g false b
  | udpClientFromRead =>
    have hsendto := sysSendto_parts (g := g) (k := k) (c := c) b
    generalize c.sysSendto k b = r at hsendto
    obtain ⟨_ | e, c₁⟩ := r
    · exact hsendto
    · exact hsendto

theorem queueRest_parts (n : Int) (b : Bytes) :
    Parts g false c (c.queueRest g n b).2 b.length 0 := by
  unfold queueRest
  dsimp only
  split
  · refine (Parts.part (.queued _)).mono ?_
    rw [length_drop]
    exact Nat.sub_le _ _
  · exact (Parts.refl c).mono (Nat.zero_le _)

/-- The limit has been looked at before `n` bytes are queued. -/
def Fits (g : Engine) (c : Conn) (n : Nat) : Prop := n = 0 ∨ c.overflow g n = false

theorem write_parts (b : Bytes) :
    ∃ q, Fits g c q ∧ Parts g false c (c.write g k b).2 q 0 := by
  unfold write
  split
  · exact ⟨0, .inl rfl, .refl c⟩
  · split
    · exact ⟨0, .inl rfl, .refl c⟩
    · next hno =>
      rw [Bool.not_eq_true] at hno
      split
      · have hdo := doWrite_parts (g := g) (k := k) (c := c) b
        generalize c.doWrite g k b = r at hdo
        obtain ⟨⟨n, err⟩, c'⟩ := r
        have hqueue : Parts g false c (c'.queueRest g n b).2 b.length 0 := by
          have := hdo.trans (queueRest_parts n b)
          rwa [Nat.zero_add, Int.add_zero] at this
        cases err with
        | none => exact ⟨b.length, .inr hno, hqueue⟩
        | some e =>
          dsimp only
          split
          · exact ⟨b.length, .inr hno, hqueue⟩
          · exact ⟨0, .inl rfl, hdo⟩
      · exact ⟨b.length, .inr hno, .part (.queued b)⟩

theorem foldl_parts (bs : List Bytes) :
    Parts g false c (bs.foldl (newToWriteBuf g) c) bs.flatten.length 0 := by
  induction bs generalizing c with
  | nil => exact .refl c
  | cons b bs ih =>
    have h := (Parts.part (.queued (c := c) b)).trans ih
    rwa [← length_append, Int.add_zero] at h

theorem queueCut_parts (bs : List Bytes) {n : Nat} (hn : n ≤ bs.flatten.length) :
    Parts g false c (c.queueCut g bs n) bs.flatten.length (-n) := by
  induction bs generalizing c n with
  | nil =>
    obtain rfl : n = 0 := Nat.le_zero.1 hn
    exact .refl c
  | cons b bs ih =>
    rw [flatten_cons, length_append] at hn ⊢
    unfold queueCut
    split
    · next h0 =>
      rw [h0]
      exact (Parts.refl c).mono (Nat.zero_le _)
    · split
      · have h := ((Parts.part (.reported (c := c) n)).trans
          (.part (.queued (b.drop n)))).trans (ih (Nat.zero_le _))
        refine (?_ : Parts g false c _ _ (-n)).mono
          (q := 0 + (b.drop n).length + bs.flatten.length) ?_
        · simpa using h
        · rw [length_drop]
          omega
      · next hge =>
        have h := (Parts.part (.reported (c := c) b.length)).trans
          (ih (n := n - b.length) (by omega))
        have hsum : -(b.length : Int) + -((n - b.length : Nat) : Int) = -n := by omega
        rw [hsum] at h
        exact h.mono (by omega)

/-- Whether `writev` makes a call of `writev(2)` that takes all there is. -/
def takesWhole (g : Engine) (k : Kernel) (c : Conn) (bs : List Bytes) : Bool :=
  bs.flatten ≠ [] && !c.overflow g bs.flatten.length && c.writeList = [] &&
    k.takes c.calls bs.flatten.length

theorem takesWhole_iff (bs : List Bytes) : c.takesWhole g k bs = true ↔
    bs.flatten ≠ [] ∧ c.overflow g bs.flatten.length = false ∧ c.writeList = [] ∧
      k.takes c.calls bs.flatten.length = true := by
  simp only [takesWhole, Bool.and_eq_true, decide_eq_true_eq, Bool.not_eq_true', and_assoc]

theorem sysWrite_takes {b : Bytes} :
    (c.sysWrite k b).1.1 = b.length ↔ k.takes c.calls b.length = true := by
  unfold sysWrite Kernel.takes
  cases k.write c.calls with
  | ok m =>
    simp only [decide_eq_true_eq]
    omega
  | error e =>
    simp only [Bool.false_eq_true, iff_false]
    omega

/-- Of a `writev` everything that is sent is reported, unless one `writev(2)` takes it all. -/
theorem writev_parts (bs : List Bytes) : ∃ q, Fits g c q ∧ Parts g false c (c.writev g k bs).2 q
    (if c.takesWhole g k bs = true then bs.flatten.length else 0) := by
  unfold writev
  dsimp only
  split
  · next hno =>
    rw [if_neg fun h => by rw [((takesWhole_iff bs).1 h).2.1] at hno; cases hno]
    exact ⟨0, .inl rfl, .refl c⟩
  · next hno =>
    rw [Bool.not_eq_true] at hno
    split
    · next hlist =>
      rw [if_neg fun h => hlist ((takesWhole_iff bs).1 h).2.2.1]
      exact ⟨_, .inr hno, foldl_parts bs⟩
    · next hempty =>
      unfold sysWritev
      by_cases hnil : bs.flatten = []
      · rw [if_pos hnil, if_neg fun h => ((takesWhole_iff bs).1 h).1 hnil]
        exact ⟨0, .inl rfl, .refl c⟩
      · have hsys := sysWrite_parts (k := k) (c := c) g false bs.flatten
        have hle := (sysWrite_sends (k := k) (c := c) bs.flatten).le
        have hpos := length_pos_iff.2 hnil
        have hwhole : (c.takesWhole g k bs = true) =
            ((c.sysWrite k bs.flatten).1.1 = bs.flatten.length) := by
          rw [takesWhole_iff, sysWrite_takes]
          simp only [hnil, hno, not_not.1 hempty, ne_eq, not_false_eq_true, true_and]
        rw [if_neg hnil]
        simp only [hwhole]
        generalize c.sysWrite k bs.flatten = r at hsys hle
        obtain ⟨⟨n, err⟩, c'⟩ := r
        dsimp only at hsys hle ⊢
        split
        · split
          · have hcut := hsys.trans (queueCut_parts bs hle)
            rw [Nat.zero_add, Int.add_right_neg] at hcut
            rw [if_neg (by omega)]
            exact ⟨_, .inr hno, hcut⟩
          · obtain rfl : n = bs.flatten.length := by omega
            rw [if_pos rfl]
            exact ⟨0, .inl rfl, hsys⟩
        · next hneg =>
          rw [Int.toNat_of_nonpos (Int.not_lt.1 hneg)] at hsys
          rw [if_neg (by omega)]
          exact ⟨0, .inl rfl, hsys⟩

theorem afterWrite_made (h : Parts g false c c' q u) (r : Int × Option Err) :
    Made g k false c (c'.afterWrite g k r).2 q u := by
  unfold afterWrite
  split
  · split
    · exact ⟨c', h, .settles⟩
    · exact h.fails _
  · exact ⟨c', h, .settles⟩

theorem Write_made (b : Bytes) : ∃ q, Fits g c q ∧ Made g k false c (c.Write g k b).2 q 0 := by
  unfold Write
  split
  · exact ⟨0, .inl rfl, .refl c⟩
  · obtain ⟨q, hq, h⟩ := write_parts b
    exact ⟨q, hq, afterWrite_made h _⟩

/-! ## `Sendfile` -/

theorem sysSendfile_writeList (file : Bytes) (offset count : Nat) :
    (c.sysSendfile k file offset count).2.writeList = c.writeList :=
  (sysSendfile_sends file offset count).writeList

theorem sendfileLoop_made (file : Bytes) (total : Int) (fuel offset : Nat) (remain : Int) :
    ∃ n : Nat, Made g k false c (c.sendfileLoop g k file total fuel offset remain).2 0 n ∧
      (n = 0 ↔ remain ≤ 0 ∨ file.length ≤ offset ∨ k.refuses c.calls fuel = true) := by
  induction fuel generalizing c offset remain with
  | zero => exact ⟨0, .refl c, by simp [Kernel.refuses]⟩
  | succ fuel ih =>
    by_cases hdone : remain ≤ 0
    · rw [sendfileLoop, if_pos hdone]
      exact ⟨0, .refl c, by simp [hdone]⟩
    have hcount : 0 < min maxSendfileSize remain.toNat := by
      rw [maxSendfileSize]
      omega
    have hsys := sysSendfile_parts (k := k) (c := c) g false file offset
      (min maxSendfileSize remain.toNat)
    unfold sendfileLoop
    rw [if_neg hdone, Kernel.refuses]
    cases hk : k.sendfile c.calls with
    | ok n =>
      simp only [sysSendfile, hk] at hsys ⊢
      split
      · next hzero =>
        rw [hzero.1] at hsys
        refine ⟨0, ⟨_, hsys, .stays id⟩, ?_⟩
        simp only [beq_iff_eq, true_iff]
        omega
      · next hsome =>
        obtain ⟨m, hm, -⟩ := ih (c := { c with
            calls := c.calls + 1
            accepted := c.accepted ++ (file.drop offset).take
              (min n (min (min maxSendfileSize remain.toNat) (file.length - offset))) })
          (offset + min n (min (min maxSendfileSize remain.toNat) (file.length - offset)))
          (remain - (min n (min (min maxSendfileSize remain.toNat) (file.length - offset)) : Nat))
        refine ⟨_, hm.then hsys id, ?_⟩
        simp only [and_true] at hsome
        simp only [beq_iff_eq]
        omega
    | error e =>
      simp only [sysSendfile, hk] at hsys ⊢
      have hfail : ∃ n : Nat,
          Made g k false c ({ c with calls := c.calls + 1 }.fail (.errno e)) 0 n ∧
          (n = 0 ↔ remain ≤ 0 ∨ file.length ≤ offset ∨ true = true) :=
        ⟨0, hsys.fails _, by simp⟩
      cases e with
      | eintr =>
        obtain ⟨m, hm, hiff⟩ := ih (c := { c with calls := c.calls + 1 }) offset remain
        refine ⟨m, ?_, hiff⟩
        simpa using hm.then hsys id
      | eagain =>
        refine ⟨0, ?_, by simp⟩
        have hdup := hsys.trans_same (.part .called)
        simp only [sysDup]
        cases k.dup (c.calls + 1) with
        | ok fd =>
          exact ⟨_, hdup.trans_same (.part (.queuedFile ..)), .modWrite (by simp [newToWriteFile])⟩
        | error e => exact ⟨_, hdup, .stays id⟩
      | eexist => exact hfail
      | enoent => exact hfail
      | other code => exact hfail

def sendsNothing (k : Kernel) (c : Conn) (f : File) (remain : Int) (fuel : Nat) : Bool :=
  f.toSend remain ≤ 0 || f.contents.length ≤ f.offset || k.refuses c.calls fuel

/-- A file that is sent at once is not reported, and one that is refused or queued sends nothing. -/
theorem Sendfile_made (f : File) (remain : Int) (fuel : Nat) :
    ∃ n : Nat, Made g k false c (c.Sendfile g k fuel (some f) remain).2 0 n ∧
      (n = 0 ↔ c.closed = true ∨ f.err ≠ none ∨ c.writeList ≠ [] ∨
        c.sendsNothing k f remain fuel = true) := by
  unfold Sendfile
  dsimp only
  split
  · next hclosed => exact ⟨0, .refl c, by simp [hclosed]⟩
  · next hopen =>
    cases hf : f.err with
    | some e => exact ⟨0, .refl c, by simp⟩
    | none =>
      dsimp only
      split
      · next hlist =>
        refine ⟨0, ?_, by simp [hlist]⟩
        simp only [sysDup]
        cases k.dup c.calls with
        | ok fd =>
          exact ⟨_, (Parts.part .called).trans_same (.part (.queuedFile ..)), .stays fun _ => hlist⟩
        | error e => exact ⟨_, .part .called, .stays id⟩
      · next hempty =>
        obtain ⟨n, hn, hiff⟩ := sendfileLoop_made f.contents
          (f.toSend remain) fuel f.offset (f.toSend remain)
        refine ⟨n, hn, ?_⟩
        rw [hiff]
        simp [sendsNothing, hopen, hempty, or_assoc]

/-! ## `flush` -/

variable {head : ToWrite} {rest : List ToWrite}

theorem Sorted.head_buf (h : c.Sorted) (hlist : c.writeList = head :: rest) (hfd : head.fd ≠ 0) :
    head.buf = none := by
  by_contra hne
  exact hfd (h head (by rw [hlist]; exact mem_cons_self) hne)

theorem reportWritten_writeList (n : Nat) : (c.reportWritten g n).writeList = c.writeList :=
  (reportWritten_same n).writeList

theorem writeBuffer_parts {b : Buffer} (hlist : c.writeList = head :: rest)
    (hb : head.buf = some b) : Parts g true c (c.writeBuffer g k head b rest).2 0 0 := by
  have hsys := sysWrite_parts (k := k) (c := c) g true (b.data.drop head.offset)
  have hsends := sysWrite_sends (k := k) (c := c) (b.data.drop head.offset)
  unfold writeBuffer
  dsimp only
  generalize c.sysWrite k (b.data.drop head.offset) = r at hsys hsends
  obtain ⟨⟨n, err⟩, c₁⟩ := r
  have hle := hsends.le
  rw [length_drop] at hle ⊢
  have hlist₁ := (reportWritten_writeList (g := g) n.toNat).trans (hsends.writeList.trans hlist)
  have hcount : head.bufferLeft = (b.data.length : Int) - head.offset := by
    rw [ToWrite.bufferLeft, hb]
  split
  · split
    · exact (hsys.report rfl).trans_same
        (.part (.released _ _ hlist₁ rfl fun _ => by omega))
    · refine (hsys.report rfl).trans_same (.part (.shrunk _ _ hlist₁ rfl rfl rfl fun _ => ?_))
      simp only [ToWrite.bufferLeft, hb]
      omega
  · next hneg =>
    rw [Int.toNat_of_nonpos (Int.not_lt.1 hneg)] at hsys
    exact hsys

theorem writeFile_parts (hlist : c.writeList = head :: rest) (hfd : head.fd ≠ 0) :
    Parts g true c (c.writeFile g k head rest).2 0 0 := by
  have hsys := sysSendfile_parts (k := k) (c := c) g true head.file head.offset
    head.remain.toNat
  have hsame := sysSendfile_writeList (k := k) (c := c) head.file head.offset head.remain.toNat
  unfold writeFile
  generalize c.sysSendfile k head.file head.offset head.remain.toNat = r at hsys hsame
  obtain ⟨⟨n, err⟩, c₁⟩ := r
  dsimp only at hsys hsame ⊢
  have hlist₁ := (reportWritten_writeList (g := g) n.toNat).trans (hsame.trans hlist)
  split
  · have hleft := Int.sub_zero (c₁.reportWritten g n.toNat).left
    let head' : ToWrite := { head with
      remain := head.remain - n.toNat, offset := head.offset + n.toNat }
    split
    · have hpart := Part.released (g := g) head' 0 hlist₁ rfl fun hs => by
        simp [ToWrite.bufferLeft, hs.head_buf hlist₁ hfd]
      rw [Nat.cast_zero, hleft] at hpart
      exact (hsys.report rfl).trans_same (.part hpart)
    · have hpart := Part.shrunk (g := g) head' 0 hlist₁ rfl rfl rfl fun hs => by
        simp [head', ToWrite.bufferLeft, hs.head_buf hlist₁ hfd]
      rw [Nat.cast_zero, hleft] at hpart
      exact (hsys.report rfl).trans_same (.part hpart)
  · next hneg =>
    rw [Int.toNat_of_nonpos (Int.not_lt.1 hneg)] at hsys
    exact hsys

theorem flushHead_parts {r : Option Errno × Conn} (hlist : c.writeList = head :: rest)
    (h : c.flushHead g k head rest = some r) : Parts g true c r.2 0 0 := by
  unfold flushHead at h
  split at h
  · obtain ⟨b, hb, rfl⟩ := Option.map_eq_some_iff.1 h
    exact writeBuffer_parts hlist hb
  · next hfd =>
    split at h
    · cases h
      exact writeFile_parts hlist hfd
    · cases h
      exact .refl c

theorem flushLoop_made (fuel : Nat) : Made g k true c (c.flushLoop g k fuel).2 0 0 := by
  induction fuel generalizing c with
  | zero => exact .refl c
  | succ fuel ih =>
    unfold flushLoop
    cases hlist : c.writeList with
    | nil => exact ⟨c, .refl c, .resetRead hlist⟩
    | cons head rest =>
      have hne : c.writeList ≠ [] := by simp [hlist]
      simp only
      cases hr : c.flushHead g k head rest with
      | none => exact .refl c
      | some r =>
        have hhead := flushHead_parts hlist hr
        obtain ⟨err, c₁⟩ := r
        cases err with
        | none => exact ih.then hhead fun _ => hne
        | some e =>
          cases e with
          | eintr => exact ih.then hhead fun _ => hne
          | eagain =>
            simp only
            split
            · next h => exact ⟨c₁, hhead, .rearms h⟩
            · exact ⟨c₁, hhead, .stays fun _ => hne⟩
          | eexist => exact hhead.fails _
          | enoent => exact hhead.fails _
          | other code => exact hhead.fails _

theorem flush_made (fuel : Nat) : Made g k true c (c.flush g k fuel).2 0 0 := by
  unfold flush
  split
  · exact .refl c
  split
  · exact .refl c
  · exact flushLoop_made fuel

end Conn

end Nbio.Net
